import Stencil.Proofs.Clauses

/-! # The language of conditions

A clause is an expression, or two with a relation between. What follows a connective matters only if the
clause before it has not decided. A condition that has been accepted can always be decided. -/
namespace Stencil.Condition
open Expression

/-- What a clause compares. -/
inductive Comparison where
  | truth (tree : Expression.Tree Operand)
  | relation (relation : Relation) (left right : Expression.Tree Operand)

def Comparison.holds (scope : Scope) : Comparison → Bool
  | .truth t => (t.value (Operand.resolve scope)).truthy
  | .relation r t u => r.holds (t.value (Operand.resolve scope)) (u.value (Operand.resolve scope))

/-- Words without a relation, that are derivable. -/
structure IsExpression (words : List String) (t : Expression.Tree Operand) : Prop where
  plain : ∀ word ∈ words, Relation.ofSymbol? word = none
  derives : Derives .sum limit (words.map spell) t

inductive IsClause : List String → Comparison → Prop
  | truth {words t} : IsExpression words t → IsClause words (.truth t)
  | relation {before word after r t u} : IsExpression before t → Relation.ofSymbol? word = some r →
      IsExpression after u → IsClause (before ++ word :: after) (.relation r t u)

structure InLanguage (words : List String) : Prop where
  fine : ∀ word ∈ words, Fine word
  clauses : ∃ comparisons, List.Forall₂ IsClause (words.splitOnP isConnective) comparisons

/-- The value of clauses with connectives between, grouped to the right. -/
def nested : List Bool → List Connective → Bool
  | [], _ => false
  | holds :: _, [] => holds
  | holds :: rest, .and :: connectives => holds && nested rest connectives
  | holds :: rest, .or :: connectives => holds || nested rest connectives

/-! ## Checking a clause -/

theorem missing?_eq_none_iff {source : String} {clause : Clause} :
    clause.missing? source = none ↔
      clause.left ≠ [] ∧ (clause.right ≠ [] ∨ clause.relation = none) := by
  obtain ⟨left, relation, right⟩ := clause
  unfold Clause.missing?
  cases left <;> cases relation <;> cases right <;> simp

theorem check_eq_ok_iff {source : String} {clause : Clause} :
    clause.check source = .ok () ↔ (∃ t, Derives .sum limit clause.left t) ∧
      ((∃ u, Derives .sum limit clause.right u) ∨ clause.relation = none ∧ clause.right = []) := by
  unfold Clause.check
  constructor
  · intro h
    split at h
    · cases h
    · rename_i hm
      obtain ⟨hleft, hright⟩ := missing?_eq_none_iff.mp hm
      obtain ⟨v, hv, h⟩ := Except.bind_eq_ok_iff.mp h
      obtain ⟨w, hw, -⟩ := Except.bind_eq_ok_iff.mp h
      refine ⟨?_, ?_⟩
      · rcases evaluate_eq_ok_iff.mp hv with ⟨hnil, -⟩ | ⟨t, ht, -⟩
        · exact absurd hnil hleft
        · exact ⟨t, ht⟩
      · rcases evaluate_eq_ok_iff.mp hw with ⟨hnil, -⟩ | ⟨u, hu, -⟩
        · exact .inr ⟨hright.resolve_left (absurd hnil), hnil⟩
        · exact .inl ⟨u, hu⟩
  · intro h
    obtain ⟨⟨t, ht⟩, hright⟩ := h
    have hnull : ∃ w, Expression.evaluate (fun _ => Value.null) clause.right = .ok w := by
      rcases hright with ⟨u, hu⟩ | ⟨-, hnil⟩
      · exact ⟨_, evaluate_eq_ok_iff.mpr (.inr ⟨u, hu, rfl⟩)⟩
      · exact ⟨_, evaluate_eq_ok_iff.mpr (.inl ⟨hnil, rfl⟩)⟩
    have hm : clause.missing? source = none := by
      refine missing?_eq_none_iff.mpr ⟨ht.ne_nil, ?_⟩
      rcases hright with ⟨u, hu⟩ | ⟨hnone, -⟩
      · exact .inl hu.ne_nil
      · exact .inr hnone
    obtain ⟨w, hw⟩ := hnull
    rw [hm]
    dsimp only
    rw [evaluate_eq_ok_iff.mpr (.inr ⟨t, ht, rfl⟩), hw]
    rfl

theorem evaluate_truth {scope : Scope} {clause : Clause} {t : Expression.Tree Operand}
    (hr : clause.relation = none) (ht : Derives .sum limit clause.left t) :
    clause.evaluate scope = .ok (t.value (Operand.resolve scope)).truthy := by
  unfold Clause.evaluate
  rw [evaluate_eq_ok_iff.mpr (.inr ⟨t, ht, rfl⟩), hr]
  rfl

theorem evaluate_relation {scope : Scope} {clause : Clause} {t u : Expression.Tree Operand} {r : Relation}
    (hr : clause.relation = some r) (ht : Derives .sum limit clause.left t)
    (hu : Derives .sum limit clause.right u) :
    clause.evaluate scope =
      .ok (r.holds (t.value (Operand.resolve scope)) (u.value (Operand.resolve scope))) := by
  unfold Clause.evaluate
  rw [evaluate_eq_ok_iff.mpr (.inr ⟨t, ht, rfl⟩), evaluate_eq_ok_iff.mpr (.inr ⟨u, hu, rfl⟩), hr]
  rfl

/-- Whether a clause has a value depends on its tokens alone. -/
theorem evaluate_of_check {source : String} {clause : Clause} (h : clause.check source = .ok ())
    (scope : Scope) : ∃ holds, clause.evaluate scope = .ok holds := by
  obtain ⟨⟨t, ht⟩, hright⟩ := check_eq_ok_iff.mp h
  cases hr : clause.relation with
  | none => exact ⟨_, evaluate_truth hr ht⟩
  | some r =>
    rcases hright with ⟨u, hu⟩ | ⟨hnone, -⟩
    · exact ⟨_, evaluate_relation hr ht hu⟩
    · rw [hr] at hnone
      cases hnone

theorem Makes.comparison {source : String} {words : List String} {k : Clause} (h : Makes words k)
    (hk : k.check source = .ok ()) : ∃ comparison, IsClause words comparison := by
  obtain ⟨⟨t, ht⟩, hright⟩ := check_eq_ok_iff.mp hk
  cases h with
  | single hr => exact ⟨.truth t, .truth ⟨hr, ht⟩⟩
  | compare hb hw ha =>
    rcases hright with ⟨u, hu⟩ | ⟨hnone, -⟩
    · exact ⟨_, .relation ⟨hb, ht⟩ hw ⟨ha, hu⟩⟩
    · cases hnone

/-- The clause that is written means what it says. -/
theorem IsClause.makes {words : List String} {comparison : Comparison}
    (h : IsClause words comparison) (source : String) :
    ∃ k, Makes words k ∧ k.check source = .ok () ∧
      ∀ scope, k.evaluate scope = .ok (comparison.holds scope) := by
  cases h with
  | truth ht =>
    exact ⟨_, .single ht.plain, check_eq_ok_iff.mpr ⟨⟨_, ht.derives⟩, .inr ⟨rfl, rfl⟩⟩,
      fun scope => evaluate_truth rfl ht.derives⟩
  | relation ht hw hu =>
    exact ⟨_, .compare ht.plain hw hu.plain,
      check_eq_ok_iff.mpr ⟨⟨_, ht.derives⟩, .inl ⟨_, hu.derives⟩⟩,
      fun scope => evaluate_relation rfl ht.derives hu.derives⟩

/-! ## Deciding a condition -/

theorem settle_eq {scope : Scope} {clauses : List Clause} {values : List Bool}
    (h : List.Forall₂ (fun k holds => k.evaluate scope = .ok holds) clauses values)
    (connectives : List Connective) :
    settle scope clauses connectives = .ok (nested values connectives) := by
  induction h generalizing connectives with
  | nil => rfl
  | @cons k holds _ _ hk _ ih =>
    rw [settle, hk]
    cases connectives with
    | nil => rfl
    | cons connective connectives =>
      cases connective <;> cases holds
      · rfl
      · exact ih connectives
      · exact ih connectives
      · rfl

theorem evaluate_of_checks {source : String} {clauses : List Clause}
    (h : ∀ clause ∈ clauses, clause.check source = .ok ()) (scope : Scope) :
    ∃ values, List.Forall₂ (fun k holds => k.evaluate scope = .ok holds) clauses values := by
  induction clauses with
  | nil => exact ⟨[], .nil⟩
  | cons clause clauses ih =>
    obtain ⟨hclause, hclauses⟩ := List.forall_mem_cons.mp h
    obtain ⟨holds, hv⟩ := evaluate_of_check hclause scope
    obtain ⟨values, hvs⟩ := ih hclauses
    exact ⟨holds :: values, .cons hv hvs⟩

theorem parse_eq_ok_iff {source : String} {condition : Condition} :
    parse source = .ok condition ↔ condition.source = source ∧
      clausesOf source {} (words source) = .ok (condition.clauses, condition.connectives) ∧
      ∀ clause ∈ condition.clauses, clause.check source = .ok () := by
  unfold parse
  rw [Except.bind_eq_ok_iff]
  constructor
  · intro h
    obtain ⟨⟨clauses, connectives⟩, hc, h⟩ := h
    obtain ⟨⟨⟩, hf, h⟩ := Except.bind_eq_ok_iff.mp h
    cases h
    exact ⟨rfl, hc, Except.forM_eq_ok_iff.mp hf⟩
  · intro h
    obtain ⟨rfl, hc, hf⟩ := h
    exact ⟨_, hc, Except.bind_eq_ok_iff.mpr ⟨(), Except.forM_eq_ok_iff.mpr hf, rfl⟩⟩

theorem mem_splitOnP_iff {p : String → Bool} {words : List String} {word : String} :
    (∃ part ∈ words.splitOnP p, word ∈ part) ↔ word ∈ words ∧ p word = false := by
  induction words with
  | nil => simp
  | cons first rest ih =>
    rw [List.splitOnP_cons_eq_if_modifyHead]
    by_cases hp : p first = true
    · rw [if_pos hp, List.mem_cons]
      simp only [List.mem_cons, exists_eq_or_imp, List.not_mem_nil, false_or, ih]
      grind
    · obtain ⟨head, tail, hs⟩ := List.exists_cons_of_ne_nil (List.splitOnP_ne_nil p rest)
      rw [hs] at ih
      rw [if_neg hp, hs, List.modifyHead_cons, List.mem_cons]
      simp only [List.mem_cons, exists_eq_or_imp] at ih ⊢
      grind

theorem not_connective_of_mem {words : List String} :
    ∀ part ∈ words.splitOnP isConnective, ∀ word ∈ part, isConnective word = false :=
  fun part hp _ hw => (mem_splitOnP_iff.mp ⟨part, hp, hw⟩).2

/-- Parts that are sorted into clauses are written in the language. -/
theorem comparisons_of_clauses {source : String} {parts : List (List String)} {clauses : List Clause}
    (hs : List.Forall₂ (fun part k => part.foldlM (put source) {} = .ok k) parts clauses)
    (hc : ∀ part ∈ parts, ∀ word ∈ part, isConnective word = false)
    (hk : ∀ k ∈ clauses, k.check source = .ok ()) :
    (∀ part ∈ parts, ∀ word ∈ part, Fine word) ∧
      ∃ comparisons, List.Forall₂ IsClause parts comparisons := by
  induction hs with
  | nil => exact ⟨nofun, [], .nil⟩
  | cons hf _ ih =>
    obtain ⟨hc₁, hc⟩ := List.forall_mem_cons.mp hc
    obtain ⟨hk₁, hk⟩ := List.forall_mem_cons.mp hk
    obtain ⟨hfine, hm⟩ := makes_of_foldlM hc₁ hf
    obtain ⟨comparison, hcomp⟩ := hm.comparison hk₁
    obtain ⟨hfines, comparisons, hcomps⟩ := ih hc hk
    exact ⟨List.forall_mem_cons.mpr ⟨hfine, hfines⟩, comparison :: comparisons, .cons hcomp hcomps⟩

/-- Parts that are written in the language are sorted into clauses, which have their values. -/
theorem clauses_of_language {source : String} {parts : List (List String)}
    {comparisons : List Comparison} (h : List.Forall₂ IsClause parts comparisons)
    (hc : ∀ part ∈ parts, ∀ word ∈ part, isConnective word = false)
    (hf : ∀ part ∈ parts, ∀ word ∈ part, Fine word) :
    ∃ clauses, List.Forall₂ (fun part k => part.foldlM (put source) {} = .ok k) parts clauses ∧
      (∀ k ∈ clauses, k.check source = .ok ()) ∧
      List.Forall₂ (fun k comparison => ∀ scope, k.evaluate scope = .ok (comparison.holds scope))
        clauses comparisons := by
  induction h with
  | nil => exact ⟨[], .nil, nofun, .nil⟩
  | cons h₁ _ ih =>
    obtain ⟨hc₁, hc⟩ := List.forall_mem_cons.mp hc
    obtain ⟨hf₁, hf⟩ := List.forall_mem_cons.mp hf
    obtain ⟨k, hm, hk, heval⟩ := h₁.makes source
    obtain ⟨clauses, hs, hks, hevals⟩ := ih hc hf
    exact ⟨k :: clauses, .cons (hm.foldlM hc₁ hf₁) hs, List.forall_mem_cons.mpr ⟨hk, hks⟩,
      .cons heval hevals⟩

theorem fine_of_parts {words : List String}
    (h : ∀ part ∈ words.splitOnP isConnective, ∀ word ∈ part, Fine word) :
    ∀ word ∈ words, Fine word := by
  intro word hw
  cases hc : Connective.ofSymbol? word with
  | some c =>
    exact Known.fine (.inr (.inr (by rw [hc]; rfl)))
  | none =>
    have hn : isConnective word = false := by rw [isConnective, hc]; rfl
    obtain ⟨part, hp, hword⟩ := mem_splitOnP_iff.mpr ⟨hw, hn⟩
    exact h part hp word hword

theorem inLanguage_of_parse {source : String} {condition : Condition}
    (h : parse source = .ok condition) : InLanguage (words source) := by
  obtain ⟨-, hclauses, hchecks⟩ := parse_eq_ok_iff.mp h
  obtain ⟨hsorts, -⟩ := clausesOf_eq_ok_iff.mp hclauses
  obtain ⟨hfine, comparisons, hcomps⟩ := comparisons_of_clauses
    ((sorts_iff (List.splitOnP_ne_nil _ _)).mp hsorts) not_connective_of_mem hchecks
  exact ⟨fine_of_parts hfine, comparisons, hcomps⟩

theorem parse_of_language {source : String} {comparisons : List Comparison}
    (hf : ∀ word ∈ words source, Fine word)
    (h : List.Forall₂ IsClause ((words source).splitOnP isConnective) comparisons) :
    ∃ condition, parse source = .ok condition ∧
      ∀ scope, condition.evaluate scope = .ok (nested (comparisons.map (·.holds scope))
        ((words source).filterMap Connective.ofSymbol?)) := by
  have hparts : ∀ part ∈ (words source).splitOnP isConnective, ∀ word ∈ part, Fine word :=
    fun part hp word hw => hf word (mem_splitOnP_iff.mp ⟨part, hp, hw⟩).1
  obtain ⟨clauses, hs, hchecks, hevals⟩ := clauses_of_language h not_connective_of_mem hparts
  have hclauses := clausesOf_eq_ok_iff.mpr ⟨(sorts_iff (List.splitOnP_ne_nil _ _)).mpr hs, rfl⟩
  refine ⟨⟨source, clauses, _⟩, parse_eq_ok_iff.mpr ⟨rfl, hclauses, hchecks⟩, fun scope => ?_⟩
  refine settle_eq ?_ _
  rw [List.forall₂_map_right_iff]
  exact hevals.imp fun _ _ he => he scope

/-- A text is a condition exactly when its words are in the language, and a condition has the value of the
clauses that are written, grouped to the right. -/
theorem parse_iff_inLanguage (source : String) :
    ((∃ condition, parse source = .ok condition) ↔ InLanguage (words source)) ∧
      ∀ condition comparisons, parse source = .ok condition →
        List.Forall₂ IsClause ((words source).splitOnP isConnective) comparisons →
        ∀ scope, condition.evaluate scope = .ok (nested (comparisons.map (·.holds scope))
          ((words source).filterMap Connective.ofSymbol?)) := by
  refine ⟨⟨?_, ?_⟩, ?_⟩
  · intro h
    obtain ⟨condition, h⟩ := h
    exact inLanguage_of_parse h
  · intro h
    obtain ⟨comparisons, hcomps⟩ := h.clauses
    obtain ⟨condition, hparse, -⟩ := parse_of_language h.fine hcomps
    exact ⟨condition, hparse⟩
  · intro condition comparisons h hcomps
    obtain ⟨parsed, hparse, heval⟩ := parse_of_language (inLanguage_of_parse h).fine hcomps
    rw [h] at hparse
    cases hparse
    exact heval

theorem evaluate_two_clauses :
    ∃ condition, parse "a < b || -(@index)" = .ok condition ∧
      InLanguage (words "a < b || -(@index)") ∧ ∀ scope, condition.evaluate scope = .ok
        (Comparison.holds scope (.relation .lt (.operand (.reference (.path "a")))
            (.operand (.reference (.path "b")))) ||
          Comparison.holds scope (.truth (.minus (.operand (.reference .index))))) := by
  have hwords : words "a < b || -(@index)" = ["a", "<", "b", "||", "-", "(", "@index", ")"] := by
    with_unfolding_all rfl
  have hcompare : IsClause (["a"] ++ "<" :: ["b"]) (.relation .lt _ _) :=
    .relation ⟨by decide, .sum (.term .operand)⟩ rfl ⟨by decide, .sum (.term .operand)⟩
  have htruth : IsClause ["-", "(", "@index", ")"] (.truth _) :=
    .truth ⟨by decide, .sum (.term (.minus (.group (.sum (.term .operand)))))⟩
  have hok : (parse "a < b || -(@index)").toBool = true := by decide +kernel
  cases hp : parse "a < b || -(@index)" with
  | error fault =>
    rw [hp] at hok
    cases hok
  | ok condition =>
    refine ⟨condition, rfl, (parse_iff_inLanguage _).1.mp ⟨condition, hp⟩, fun scope => ?_⟩
    have hclauses := (parse_iff_inLanguage _).2 condition
      [.relation .lt (.operand (.reference (.path "a"))) (.operand (.reference (.path "b"))),
        .truth (.minus (.operand (.reference .index)))] hp
    rw [hwords] at hclauses
    exact hclauses (.cons hcompare (.cons htruth .nil)) scope

end Stencil.Condition
