import Mathlib.Data.List.Forall2
import Stencil.Condition
import Stencil.Proofs.Arithmetic

/-! # From words to clauses

The words of a condition are cut at the connectives, and the words between two of them make a clause. -/
namespace Stencil.Condition
open Expression

/-! ## Words -/

abbrev Symbolic (word : String) : Prop :=
  word.toList.head?.any Words.isSymbol = true

/-- One of the fourteen operators: arithmetic, relation or connective. -/
def Known (word : String) : Prop :=
  (Operator.ofSymbol? word).isSome ∨ (Relation.ofSymbol? word).isSome ∨
    (Connective.ofSymbol? word).isSome

/-- What follows an at sign is the name of a reserved variable. -/
def Reserved (word : String) : Prop :=
  ∀ name, word.toList = '@' :: name → (Accessor.reserved? (String.ofList name)).isSome

/-- The token that a word is in an expression. A word that is no operator and no parenthesis is an
operand. -/
def spell (word : String) : Token Operand :=
  match Operator.ofSymbol? word with
  | some o => .operator o
  | none =>
    if word = "(" then .opening
    else if word = ")" then .closing
    else .operand ((Operand.parse word).toOption.getD (.literal .null))

/-- The operators into which a condition is cut are those that the three tables know. -/
theorem known_iff_mem {word : String} : Known word ↔ word ∈ Words.operators.map String.ofList := by
  constructor
  · intro h
    rcases h with h | h | h
    · unfold Operator.ofSymbol? at h
      split at h <;> first | decide | cases h
    · unfold Relation.ofSymbol? at h
      split at h <;> first | decide | cases h
    · unfold Connective.ofSymbol? at h
      split at h <;> first | decide | cases h
  · intro h
    have hall : ∀ op ∈ Words.operators.map String.ofList, Known op := by
      unfold Known
      decide
    exact hall word h

/-- No two operators have the same meaning. -/
theorem Known.eq_of_meaning {word other : String} (h : Known word) (h' : Known other)
    (ho : Operator.ofSymbol? word = Operator.ofSymbol? other)
    (hr : Relation.ofSymbol? word = Relation.ofSymbol? other)
    (hc : Connective.ofSymbol? word = Connective.ofSymbol? other) : word = other := by
  have hall : ∀ a ∈ Words.operators.map String.ofList, ∀ b ∈ Words.operators.map String.ofList,
      Operator.ofSymbol? a = Operator.ofSymbol? b → Relation.ofSymbol? a = Relation.ofSymbol? b →
        Connective.ofSymbol? a = Connective.ofSymbol? b → a = b := by
    decide
  exact hall word (known_iff_mem.mp h) other (known_iff_mem.mp h') ho hr hc

theorem Known.symbolic {word : String} (h : Known word) : Symbolic word := by
  have hall : ∀ op ∈ Words.operators.map String.ofList, Symbolic op := by decide
  exact hall word (known_iff_mem.mp h)

theorem Symbolic.reserved {word : String} (h : Symbolic word) : Reserved word := by
  intro name hn
  rw [Symbolic, hn] at h
  cases h

theorem accessor_parse_ok_iff {word : String} :
    (∃ x, Accessor.parse word = .ok x) ↔ Reserved word := by
  unfold Accessor.parse Reserved
  split
  · rename_i name hn
    cases hr : Accessor.reserved? (String.ofList name) <;> simp [hn, hr]
  · rename_i hn
    exact iff_of_true ⟨_, rfl⟩ fun name h => absurd h (hn name)

/-- Only a name after an at sign can fail to be an operand. -/
theorem operand_parse_ok_iff {word : String} :
    (∃ x, Operand.parse word = .ok x) ↔ Reserved word := by
  by_cases h : ∃ name, word.toList = '@' :: name
  · obtain ⟨name, hn⟩ := h
    have hquote : Operand.unquote? word.toList = none := by
      rw [hn]
      rfl
    have hliteral : Value.ofLiteral? word = none := by
      unfold Value.ofLiteral?
      rw [hn]
      rfl
    have hparse : Operand.parse word = (Accessor.parse word).map .reference := by
      unfold Operand.parse
      rw [hquote, hliteral]
      dsimp only
      split <;> first | rfl | cases hn
    rw [hparse, ← accessor_parse_ok_iff]
    cases Accessor.parse word <;> simp [Except.map]
  · have hreserved : Reserved word := fun name hn => absurd ⟨name, hn⟩ h
    refine iff_of_true ?_ hreserved
    obtain ⟨x, hx⟩ := accessor_parse_ok_iff.mpr hreserved
    unfold Operand.parse
    split
    · exact ⟨_, rfl⟩
    · split
      · exact ⟨_, rfl⟩
      · split
        · exact ⟨_, rfl⟩
        · exact ⟨_, rfl⟩
        · exact ⟨_, rfl⟩
        · exact ⟨_, by rw [hx]; rfl⟩

/-- Words that a condition may have. -/
structure Fine (word : String) : Prop where
  known : Symbolic word → Known word
  reserved : Reserved word

theorem Known.fine {word : String} (h : Known word) : Fine word :=
  ⟨fun _ => h, h.symbolic.reserved⟩

theorem Fine.of_not_symbolic {word : String} (h : ¬ Symbolic word) (hr : Reserved word) : Fine word :=
  ⟨fun hs => absurd hs h, hr⟩

theorem reserved_parenthesis {word : String} (h : word = "(" ∨ word = ")") : Reserved word := by
  rcases h with rfl | rfl
  · exact nofun
  · exact nofun

theorem token_eq_ok_iff {source word : String} {token : Token Operand}
    (hr : Relation.ofSymbol? word = none) (hc : Connective.ofSymbol? word = none) :
    Condition.token source word = .ok token ↔ Fine word ∧ token = spell word := by
  unfold Condition.token spell
  cases ho : Operator.ofSymbol? word with
  | some o =>
    have hfine : Fine word := Known.fine (.inl (by rw [ho]; rfl))
    simp [hfine, eq_comm]
  | none =>
    dsimp only
    by_cases hopen : word = "("
    · subst hopen
      have hfine := Fine.of_not_symbolic (by decide) (reserved_parenthesis (.inl rfl))
      simp [hfine, eq_comm]
    · by_cases hclose : word = ")"
      · subst hclose
        have hfine := Fine.of_not_symbolic (by decide) (reserved_parenthesis (.inr rfl))
        simp [hfine, eq_comm]
      · rw [if_neg hopen, if_neg hclose, if_neg hopen, if_neg hclose]
        by_cases hs : Symbolic word
        · have hknown : ¬ Known word := by
            rw [Known, ho, hr, hc]
            simp
          have hfine : ¬ Fine word := fun h => hknown (h.known hs)
          rw [if_pos hs]
          simp [hfine]
        · rw [if_neg hs, Except.mapError_eq_ok_iff, Except.map_eq_ok_iff]
          constructor
          · intro h
            obtain ⟨x, hx, rfl⟩ := h
            refine ⟨.of_not_symbolic hs (operand_parse_ok_iff.mp ⟨x, hx⟩), ?_⟩
            rw [hx]
            rfl
          · intro h
            obtain ⟨hfine, rfl⟩ := h
            obtain ⟨x, hx⟩ := operand_parse_ok_iff.mpr hfine.reserved
            refine ⟨x, hx, ?_⟩
            rw [hx]
            rfl

/-! ## Clauses -/

def isConnective (word : String) : Bool :=
  (Connective.ofSymbol? word).isSome

/-- A clause with one word more. -/
def put (source : String) (clause : Clause) (word : String) : Except ExpressionFault Clause :=
  match Relation.ofSymbol? word, clause.relation with
  | some _, some first => .error (.secondRelation word first source)
  | some relation, none => .ok { clause with relation := some relation }
  | none, _ => (Condition.token source word).map clause.push

/-- The first part goes on with a clause that has been begun, each other part is a clause. -/
def Sorts (source : String) (clause : Clause) (parts : List (List String)) (clauses : List Clause) :
    Prop :=
  ∃ part others first more, parts = part :: others ∧ clauses = first :: more ∧
    part.foldlM (put source) clause = .ok first ∧
    List.Forall₂ (fun part k => part.foldlM (put source) {} = .ok k) others more

theorem sorts_modifyHead_iff {source word : String} {clause : Clause} {parts : List (List String)}
    {clauses : List Clause} :
    Sorts source clause (parts.modifyHead (word :: ·)) clauses ↔
      ∃ next, put source clause word = .ok next ∧ Sorts source next parts clauses := by
  constructor
  · intro h
    obtain ⟨part, others, first, more, hp, rfl, hf, hm⟩ := h
    cases parts with
    | nil => cases hp
    | cons head tail =>
      obtain ⟨rfl, rfl⟩ := List.cons.inj hp
      rw [List.foldlM_cons] at hf
      obtain ⟨next, hn, hf⟩ := Except.bind_eq_ok_iff.mp hf
      exact ⟨next, hn, head, tail, first, more, rfl, rfl, hf, hm⟩
  · intro h
    obtain ⟨next, hn, part, others, first, more, rfl, rfl, hf, hm⟩ := h
    refine ⟨word :: part, others, first, more, rfl, rfl, ?_, hm⟩
    rw [List.foldlM_cons, hn]
    exact hf

theorem sorts_iff {source : String} {parts : List (List String)} {clauses : List Clause}
    (h : parts ≠ []) : Sorts source {} parts clauses ↔
      List.Forall₂ (fun part k => part.foldlM (put source) {} = .ok k) parts clauses := by
  constructor
  · intro hs
    obtain ⟨part, others, first, more, rfl, rfl, hf, hm⟩ := hs
    exact .cons hf hm
  · intro hall
    cases hall with
    | nil => exact absurd rfl h
    | cons hf hm => exact ⟨_, _, _, _, rfl, rfl, hf, hm⟩

theorem connective_of_relation {word : String} {r : Relation} (h : Relation.ofSymbol? word = some r) :
    Connective.ofSymbol? word = none := by
  unfold Relation.ofSymbol? at h
  split at h <;> first | rfl | cases h

theorem clausesOf_cons_put {source word : String} {clause : Clause} {rest : List String}
    (hc : Connective.ofSymbol? word = none) :
    clausesOf source clause (word :: rest) =
      (put source clause word).bind fun next => clausesOf source next rest := by
  rw [clausesOf, put, hc]
  cases Relation.ofSymbol? word with
  | some r =>
    dsimp only
    cases clause.relation <;> rfl
  | none =>
    dsimp only
    cases Condition.token source word <;> rfl

theorem clausesOf_cons_connective {source word : String} {clause : Clause} {rest : List String}
    {c : Connective} (hc : Connective.ofSymbol? word = some c) :
    clausesOf source clause (word :: rest) =
      (clausesOf source {} rest).map fun found => (clause :: found.1, c :: found.2) := by
  rw [clausesOf, hc]
  cases hr : Relation.ofSymbol? word with
  | some r =>
    rw [connective_of_relation hr] at hc
    cases hc
  | none =>
    dsimp only
    cases clausesOf source {} rest <;> rfl

theorem clausesOf_eq_ok_iff {source : String} {clause : Clause} {words : List String}
    {clauses : List Clause} {connectives : List Connective} :
    clausesOf source clause words = .ok (clauses, connectives) ↔
      Sorts source clause (words.splitOnP isConnective) clauses ∧
        connectives = words.filterMap Connective.ofSymbol? := by
  induction words generalizing clause clauses connectives with
  | nil =>
    rw [clausesOf, List.splitOnP_nil]
    constructor
    · intro h
      cases h
      exact ⟨⟨[], [], clause, [], rfl, rfl, rfl, .nil⟩, rfl⟩
    · intro h
      obtain ⟨⟨part, others, first, more, hp, rfl, hf, hm⟩, rfl⟩ := h
      cases hp
      cases hm
      cases hf
      rfl
  | cons word rest ih =>
    rw [List.splitOnP_cons_eq_if_modifyHead]
    cases hc : Connective.ofSymbol? word with
    | some c =>
      have hn : isConnective word = true := by rw [isConnective, hc]; rfl
      rw [clausesOf_cons_connective hc, List.filterMap_cons_some hc, if_pos hn, Except.map_eq_ok_iff]
      constructor
      · intro h
        obtain ⟨⟨more, others⟩, hrest, h⟩ := h
        cases h
        obtain ⟨hs, rfl⟩ := ih.mp hrest
        have hall := (sorts_iff (List.splitOnP_ne_nil isConnective rest)).mp hs
        exact ⟨⟨[], _, clause, more, rfl, rfl, rfl, hall⟩, rfl⟩
      · intro h
        obtain ⟨⟨part, others, first, more, hp, rfl, hf, hm⟩, rfl⟩ := h
        cases hp
        cases hf
        have hs := (sorts_iff (List.splitOnP_ne_nil isConnective rest)).mpr hm
        exact ⟨(more, _), ih.mpr ⟨hs, rfl⟩, rfl⟩
    | none =>
      have hn : isConnective word = false := by rw [isConnective, hc]; rfl
      rw [clausesOf_cons_put hc, List.filterMap_cons_none hc, hn, if_neg Bool.false_ne_true,
        sorts_modifyHead_iff]
      constructor
      · intro h
        obtain ⟨next, hp, hrest⟩ := Except.bind_eq_ok_iff.mp h
        obtain ⟨hs, ho⟩ := ih.mp hrest
        exact ⟨⟨next, hp, hs⟩, ho⟩
      · intro h
        obtain ⟨⟨next, hp, hs⟩, ho⟩ := h
        exact Except.bind_eq_ok_iff.mpr ⟨next, hp, ih.mpr ⟨hs, ho⟩⟩

/-- The clause that words make: one side, or two with a relation between. -/
inductive Makes : List String → Clause → Prop
  | single {words} : (∀ word ∈ words, Relation.ofSymbol? word = none) →
      Makes words { left := words.map spell }
  | compare {before word after relation} : (∀ word ∈ before, Relation.ofSymbol? word = none) →
      Relation.ofSymbol? word = some relation → (∀ word ∈ after, Relation.ofSymbol? word = none) →
      Makes (before ++ word :: after) ⟨before.map spell, some relation, after.map spell⟩

theorem fine_of_relation {word : String} {r : Relation} (h : Relation.ofSymbol? word = some r) :
    Fine word :=
  Known.fine (.inr (.inl (by rw [h]; rfl)))

theorem put_eq_ok_iff {source word : String} {clause next : Clause}
    (hr : Relation.ofSymbol? word = none) (hc : isConnective word = false) :
    put source clause word = .ok next ↔ Fine word ∧ next = clause.push (spell word) := by
  have hn : Connective.ofSymbol? word = none := by simpa [isConnective] using hc
  unfold put
  rw [hr]
  simp only [Except.map_eq_ok_iff, token_eq_ok_iff hr hn]
  constructor
  · intro h
    obtain ⟨token, ⟨hf, rfl⟩, rfl⟩ := h
    exact ⟨hf, rfl⟩
  · intro h
    obtain ⟨hf, rfl⟩ := h
    exact ⟨_, ⟨hf, rfl⟩, rfl⟩

theorem foldlM_put_iff {source : String} {clause k : Clause} {words : List String}
    (hr : ∀ word ∈ words, Relation.ofSymbol? word = none)
    (hc : ∀ word ∈ words, isConnective word = false) :
    words.foldlM (put source) clause = .ok k ↔
      (∀ word ∈ words, Fine word) ∧ k = (words.map spell).foldl Clause.push clause := by
  induction words generalizing clause with
  | nil => simp [pure, Except.pure, eq_comm]
  | cons word words ih =>
    obtain ⟨hw, hr⟩ := List.forall_mem_cons.mp hr
    obtain ⟨hn, hc⟩ := List.forall_mem_cons.mp hc
    rw [List.foldlM_cons, Except.bind_eq_ok_iff, List.forall_mem_cons, List.map_cons,
      List.foldl_cons]
    simp only [put_eq_ok_iff hw hn]
    constructor
    · intro h
      obtain ⟨next, ⟨hf, rfl⟩, h⟩ := h
      obtain ⟨hfine, hk⟩ := (ih hr hc).mp h
      exact ⟨⟨hf, hfine⟩, hk⟩
    · intro h
      obtain ⟨⟨hf, hfine⟩, hk⟩ := h
      exact ⟨_, ⟨hf, rfl⟩, (ih hr hc).mpr ⟨hfine, hk⟩⟩

theorem foldl_push_left (tokens ts : List (Token Operand)) :
    tokens.foldl Clause.push { left := ts } = { left := ts ++ tokens } := by
  induction tokens generalizing ts with
  | nil => rw [List.append_nil, List.foldl_nil]
  | cons token tokens ih =>
    rw [List.foldl_cons, List.append_cons]
    exact ih (ts ++ [token])

theorem foldl_push_right (tokens ts us : List (Token Operand)) (r : Relation) :
    tokens.foldl Clause.push ⟨ts, some r, us⟩ = ⟨ts, some r, us ++ tokens⟩ := by
  induction tokens generalizing us with
  | nil => rw [List.append_nil, List.foldl_nil]
  | cons token tokens ih =>
    rw [List.foldl_cons, List.append_cons]
    exact ih (us ++ [token])

/-- A second relation is an error. -/
theorem plain_of_foldlM {source : String} {clause k : Clause} {words : List String} {r : Relation}
    (hk : clause.relation = some r) (hc : ∀ word ∈ words, isConnective word = false)
    (h : words.foldlM (put source) clause = .ok k) :
    ∀ word ∈ words, Relation.ofSymbol? word = none := by
  induction words generalizing clause with
  | nil => exact nofun
  | cons word words ih =>
    obtain ⟨hn, hc⟩ := List.forall_mem_cons.mp hc
    rw [List.foldlM_cons] at h
    obtain ⟨next, hp, h⟩ := Except.bind_eq_ok_iff.mp h
    cases hr : Relation.ofSymbol? word with
    | some second =>
      rw [put, hr, hk] at hp
      cases hp
    | none =>
      obtain ⟨-, rfl⟩ := (put_eq_ok_iff hr hn).mp hp
      refine List.forall_mem_cons.mpr ⟨hr, ih ?_ hc h⟩
      rw [Clause.push, hk]

/-- The words before the first relation, and those after it. -/
theorem split_at_relation (words : List String) :
    (∀ word ∈ words, Relation.ofSymbol? word = none) ∨
      ∃ before word after r, words = before ++ word :: after ∧
        (∀ word ∈ before, Relation.ofSymbol? word = none) ∧ Relation.ofSymbol? word = some r := by
  induction words with
  | nil => exact .inl nofun
  | cons word words ih =>
    cases hr : Relation.ofSymbol? word with
    | some r => exact .inr ⟨[], word, words, r, rfl, nofun, hr⟩
    | none =>
      rcases ih with h | ⟨before, second, after, r, rfl, hb, hs⟩
      · exact .inl (List.forall_mem_cons.mpr ⟨hr, h⟩)
      · exact .inr ⟨word :: before, second, after, r, rfl, List.forall_mem_cons.mpr ⟨hr, hb⟩, hs⟩

theorem put_relation {source word : String} {ts : List (Token Operand)} {r : Relation}
    (h : Relation.ofSymbol? word = some r) :
    put source { left := ts } word = .ok ⟨ts, some r, []⟩ := by
  unfold put
  rw [h]

theorem foldlM_put_compare {source word : String} {before after : List String} {k : Clause}
    {r : Relation} (hb : ∀ word ∈ before, Relation.ofSymbol? word = none)
    (hw : Relation.ofSymbol? word = some r)
    (hc : ∀ w ∈ before ++ word :: after, isConnective w = false) :
    (before ++ word :: after).foldlM (put source) {} = .ok k ↔
      (∀ w ∈ before ++ word :: after, Fine w) ∧
        (∀ word ∈ after, Relation.ofSymbol? word = none) ∧
        k = ⟨before.map spell, some r, after.map spell⟩ := by
  obtain ⟨hcb, hca⟩ := List.forall_mem_append.mp hc
  obtain ⟨-, hca⟩ := List.forall_mem_cons.mp hca
  rw [List.foldlM_append, List.forall_mem_append, List.forall_mem_cons]
  constructor
  · intro h
    obtain ⟨first, hf, h⟩ := Except.bind_eq_ok_iff.mp h
    obtain ⟨hfine, rfl⟩ := (foldlM_put_iff hb hcb).mp hf
    rw [foldl_push_left, List.foldlM_cons, put_relation hw] at h
    have hafter := plain_of_foldlM rfl hca h
    obtain ⟨hfine', rfl⟩ := (foldlM_put_iff hafter hca).mp h
    exact ⟨⟨hfine, fine_of_relation hw, hfine'⟩, hafter, foldl_push_right ..⟩
  · intro h
    obtain ⟨⟨hfine, -, hfine'⟩, hafter, rfl⟩ := h
    refine Except.bind_eq_ok_iff.mpr ⟨_, (foldlM_put_iff hb hcb).mpr ⟨hfine, rfl⟩, ?_⟩
    rw [foldl_push_left, List.foldlM_cons, put_relation hw]
    exact (foldlM_put_iff hafter hca).mpr ⟨hfine', (foldl_push_right _ _ [] r).symm⟩

theorem makes_of_foldlM {source : String} {words : List String} {k : Clause}
    (hc : ∀ word ∈ words, isConnective word = false)
    (h : words.foldlM (put source) {} = .ok k) : (∀ word ∈ words, Fine word) ∧ Makes words k := by
  rcases split_at_relation words with hr | ⟨before, word, after, r, rfl, hb, hw⟩
  · obtain ⟨hfine, rfl⟩ := (foldlM_put_iff hr hc).mp h
    rw [foldl_push_left]
    exact ⟨hfine, .single hr⟩
  · obtain ⟨hfine, hafter, rfl⟩ := (foldlM_put_compare hb hw hc).mp h
    exact ⟨hfine, .compare hb hw hafter⟩

theorem Makes.foldlM {source : String} {words : List String} {k : Clause} (h : Makes words k)
    (hc : ∀ word ∈ words, isConnective word = false) (hf : ∀ word ∈ words, Fine word) :
    words.foldlM (put source) {} = .ok k := by
  cases h with
  | single hr => exact (foldlM_put_iff hr hc).mpr ⟨hf, (foldl_push_left _ []).symm⟩
  | compare hb hw ha => exact (foldlM_put_compare hb hw hc).mpr ⟨hf, ha, rfl⟩

end Stencil.Condition
