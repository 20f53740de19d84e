import Stencil.Expression
import Stencil.Proofs.Decimals
import Stencil.Proofs.Outcome

/-! # The grammar of arithmetic

`Derives` is the grammar of sums, terms and factors, with left-associative trees. The evaluator accepts
exactly what has a derivation, whatever the operands stand for, and computes the value of its tree. -/
namespace Stencil

/-! ## Operators and operands -/

theorem Operator.additive_iff {o : Operator} : o.additive = true ↔ o = .add ∨ o = .sub := by
  cases o <;> decide

/-- An operator binds either terms or factors. -/
theorem Operator.multiplicative_eq (o : Operator) : o.multiplicative = !o.additive := by
  cases o <;> rfl

section
open Number.Reading

/-- A text counts as the float that it spells: digits, one at least, and no more than one point. -/
theorem Value.numeral_str_iff {s : String} {x : Float} :
    (Value.str s).numeral = .float x ↔
      ∃ whole places, Pointed whole places s.toList ∧ whole ++ places ≠ [] ∧
        (∀ c ∈ whole ++ places, c.isDigit = true) ∧
        scientific (natural (whole ++ places)) (-places.length) = x := by
  rw [← plain_decimal?_iff, Value.numeral]
  split
  · rename_i hplain
    cases decimal? s.toList <;> simp [hplain]
  · rename_i hplain
    simp [hplain]

/-- All else counts as itself. -/
theorem Value.numeral_eq_self_or (v : Value) :
    v.numeral = v ∨ ∃ s x, v = .str s ∧ v.numeral = .float x := by
  cases v with
  | str s =>
    rw [Value.numeral]
    split
    · cases decimal? s.toList with
      | none => exact .inl rfl
      | some x => exact .inr ⟨s, x, rfl, rfl⟩
    · exact .inl rfl
  | _ => exact .inl rfl

end

namespace Expression

/-! ## Trees -/

inductive Tree (α : Type) where
  | operand (operand : α)
  | minus (tree : Tree α)
  | join (operator : Operator) (left right : Tree α)

variable {α : Type}

def Tree.value (meaning : α → Value) : Tree α → Value
  | .operand x => (meaning x).numeral
  | .minus t => (t.value meaning).neg
  | .join o t u => o.apply (t.value meaning) (u.value meaning)

inductive Level where
  | factor
  | term
  | sum

/-- The tokens are of this level and stand for the tree. At most `room` parentheses and minuses are
open at once. -/
inductive Derives : Level → Nat → List (Token α) → Tree α → Prop
  | operand {room x} : Derives .factor room [.operand x] (.operand x)
  | minus {room ts t} : Derives .factor room ts t →
      Derives .factor (room + 1) (.operator .sub :: ts) (.minus t)
  | group {room ts t} : Derives .sum room ts t →
      Derives .factor (room + 1) (.opening :: (ts ++ [.closing])) t
  | term {room ts t} : Derives .factor room ts t → Derives .term room ts t
  | joinFactor {room o ts t us u} : Derives .term room ts t → o.multiplicative = true →
      Derives .factor room us u → Derives .term room (ts ++ .operator o :: us) (.join o t u)
  | sum {room ts t} : Derives .term room ts t → Derives .sum room ts t
  | joinTerm {room o ts t us u} : Derives .sum room ts t → o.additive = true →
      Derives .term room us u → Derives .sum room (ts ++ .operator o :: us) (.join o t u)

theorem Derives.ne_nil {level : Level} {room : Nat} {ts : List (Token α)} {t : Tree α}
    (h : Derives level room ts t) : ts ≠ [] := by
  induction h with
  | term _ ih => exact ih
  | sum _ ih => exact ih
  | _ => simp

variable {meaning : α → Value} {joins : Operator → Bool} {item : Reader α}

/-! ## What is accepted has a derivation -/

/-- Whatever the reader takes off the front stands for a tree, and the reader gives its value. -/
def Sound (meaning : α → Value) (reader : Reader α) (accepts : List (Token α) → Tree α → Prop) :
    Prop :=
  ∀ tokens v rest, reader tokens = .ok (v, rest) →
    ∃ front t, tokens = front ++ rest ∧ accepts front t ∧ v = t.value meaning

theorem more_sound {one all : List (Token α) → Tree α → Prop} (hitem : Sound meaning item one)
    (hjoin : ∀ {o ts t us u}, all ts t → joins o = true → one us u →
      all (ts ++ .operator o :: us) (.join o t u))
    {rounds : Nat} {front tokens rest : List (Token α)} {t : Tree α} {v : Value} (hf : all front t)
    (h : chain.more joins item rounds (t.value meaning) tokens = .ok (v, rest)) :
    ∃ back u, tokens = back ++ rest ∧ all (front ++ back) u ∧ v = u.value meaning := by
  have stop : ∀ {front tokens : List (Token α)} {t : Tree α}, all front t →
      .ok (t.value meaning, tokens) = (.ok (v, rest) : Except ExpressionFault _) →
      ∃ back u, tokens = back ++ rest ∧ all (front ++ back) u ∧ v = u.value meaning := by
    intro front tokens t hf h
    cases h
    exact ⟨[], t, rfl, by rwa [List.append_nil], rfl⟩
  induction rounds generalizing front tokens t with
  | zero => exact stop hf h
  | succ rounds ih =>
    unfold chain.more at h
    split at h
    · rename_i o others heq
      cases heq
      split at h
      · rename_i hj
        obtain ⟨⟨next, others⟩, hn, h⟩ := Except.bind_eq_ok_iff.mp h
        obtain ⟨us, u, rfl, hu, rfl⟩ := hitem _ _ _ hn
        have hall := hjoin hf hj hu
        obtain ⟨back, w, rfl, hw, hv⟩ := ih hall h
        refine ⟨.operator o :: (us ++ back), w, ?_, ?_, hv⟩
        · rw [List.cons_append, List.append_assoc]
        · simpa using hw
      · exact stop hf h
    · exact stop hf h

theorem chain_sound {one all : List (Token α) → Tree α → Prop} (hitem : Sound meaning item one)
    (hone : ∀ {ts t}, one ts t → all ts t)
    (hjoin : ∀ {o ts t us u}, all ts t → joins o = true → one us u →
      all (ts ++ .operator o :: us) (.join o t u)) :
    Sound meaning (chain joins item) all := by
  intro tokens v rest h
  obtain ⟨⟨first, others⟩, hf, h⟩ := Except.bind_eq_ok_iff.mp h
  obtain ⟨front, t, rfl, ht, rfl⟩ := hitem _ _ _ hf
  obtain ⟨back, u, rfl, hu, hv⟩ := more_sound hitem hjoin (hone ht) h
  exact ⟨front ++ back, u, (List.append_assoc ..).symm, hu, hv⟩

theorem sum_sound {room : Nat} {reader : Reader α}
    (h : Sound meaning reader (Derives .factor room)) :
    Sound meaning (sum reader) (Derives .sum room) :=
  chain_sound (chain_sound h .term .joinFactor) .sum .joinTerm

theorem factor_sound (meaning : α → Value) (room : Nat) :
    Sound meaning (factor meaning room) (Derives .factor room) := by
  induction room with
  | zero =>
    intro tokens v rest h
    match tokens, h with
    | .operand x :: _, h =>
      cases h
      exact ⟨[.operand x], .operand x, rfl, .operand, rfl⟩
    | .operator o :: _, h => cases o <;> cases h
  | succ room ih =>
    intro tokens v rest h
    match tokens, h with
    | .operand x :: _, h =>
      cases h
      exact ⟨[.operand x], .operand x, rfl, .operand, rfl⟩
    | .opening :: tokens, h =>
      obtain ⟨⟨value, others⟩, hs, h⟩ := Except.bind_eq_ok_iff.mp h
      obtain ⟨ts, t, rfl, ht, rfl⟩ := sum_sound ih _ _ _ hs
      match others, h with
      | .closing :: others, h =>
        cases h
        exact ⟨.opening :: (ts ++ [.closing]), t, by simp, .group ht, rfl⟩
    | .operator .sub :: tokens, h =>
      obtain ⟨⟨value, others⟩, hs, h⟩ := Except.bind_eq_ok_iff.mp h
      obtain ⟨ts, t, rfl, ht, rfl⟩ := ih _ _ _ hs
      cases h
      exact ⟨.operator .sub :: ts, .minus t, rfl, .minus ht, rfl⟩

/-! ## What has a derivation is accepted -/

/-- A chain that has read items up to here goes on with what follows. -/
def Continues (joins : Operator → Bool) (item : Reader α) (ts rest : List (Token α)) (v : Value) :
    Prop :=
  ∃ rounds, rest.length ≤ rounds ∧
    chain joins item (ts ++ rest) = chain.more joins item rounds v rest

theorem Continues.of_item {ts rest : List (Token α)} {v : Value}
    (h : item (ts ++ rest) = .ok (v, rest)) : Continues joins item ts rest v := by
  refine ⟨rest.length, Nat.le_refl _, ?_⟩
  unfold chain
  rw [h]
  rfl

theorem Continues.join {ts us rest : List (Token α)} {o : Operator} {v w : Value}
    (h : Continues joins item ts (.operator o :: (us ++ rest)) v) (hj : joins o = true)
    (hi : item (us ++ rest) = .ok (w, rest)) :
    Continues joins item (ts ++ .operator o :: us) rest (o.apply v w) := by
  obtain ⟨rounds, hlen, hc⟩ := h
  cases rounds with
  | zero => simp at hlen
  | succ rounds =>
    refine ⟨rounds, by simp at hlen; omega, ?_⟩
    rw [List.append_assoc, List.cons_append, hc, chain.more, if_pos hj, hi]
    rfl

theorem Continues.stop {ts rest : List (Token α)} {v : Value} (h : Continues joins item ts rest v)
    (hr : ∀ o more, rest = .operator o :: more → joins o = false) :
    chain joins item (ts ++ rest) = .ok (v, rest) := by
  obtain ⟨rounds, -, hc⟩ := h
  rw [hc]
  unfold chain.more
  split
  · rename_i o more
    rw [hr o more rfl]
    rfl
  · rfl

/-- How the reader of each level reads what has a derivation, whatever follows. -/
def Read (meaning : α → Value) : Level → Nat → List (Token α) → Tree α → Prop
  | .factor, room, ts, t => ∀ rest, factor meaning room (ts ++ rest) = .ok (t.value meaning, rest)
  | .term, room, ts, t => ∀ rest,
      Continues Operator.multiplicative (factor meaning room) ts rest (t.value meaning)
  | .sum, room, ts, t => ∀ rest, (∀ o more, rest = .operator o :: more → o.multiplicative = false) →
      Continues Operator.additive (chain Operator.multiplicative (factor meaning room)) ts rest
        (t.value meaning)

theorem Derives.read {level : Level} {room : Nat} {ts : List (Token α)} {t : Tree α}
    (h : Derives level room ts t) : Read meaning level room ts t := by
  induction h with
  | @operand room x =>
    intro rest
    cases room <;> rfl
  | minus _ ih =>
    intro rest
    rw [List.cons_append, factor, ih rest]
    rfl
  | @group room ts t _ ih =>
    intro rest
    have hs : Expression.sum (factor meaning room) (ts ++ .closing :: rest) =
        .ok (t.value meaning, .closing :: rest) := (ih (.closing :: rest) nofun).stop nofun
    rw [List.cons_append, List.append_assoc, factor, List.singleton_append, hs]
    rfl
  | term _ ih =>
    intro rest
    exact .of_item (ih rest)
  | joinFactor _ ho _ iht ihu =>
    intro rest
    exact (iht _).join ho (ihu rest)
  | sum _ ih =>
    intro rest hr
    exact .of_item ((ih rest).stop hr)
  | @joinTerm _ o _ _ _ _ _ ho _ iht ihu =>
    intro rest hr
    refine (iht _ ?_).join ho ((ihu rest).stop hr)
    intro o' more heq
    cases heq
    cases o <;> first | rfl | cases ho

/-- An expression has a value exactly when it is empty or derivable, and then that of its tree. -/
theorem evaluate_eq_ok_iff {tokens : List (Token α)} {v : Value} :
    evaluate meaning tokens = .ok v ↔ tokens = [] ∧ v = .null ∨
      ∃ t, Derives .sum limit tokens t ∧ v = t.value meaning := by
  unfold evaluate
  constructor
  · intro h
    split at h
    · rename_i hnil
      cases h
      exact .inl ⟨List.isEmpty_iff.mp hnil, rfl⟩
    · obtain ⟨⟨value, rest⟩, hs, h⟩ := Except.bind_eq_ok_iff.mp h
      obtain ⟨ts, t, rfl, ht, rfl⟩ := sum_sound (factor_sound meaning limit) _ _ _ hs
      cases rest with
      | nil =>
        cases h
        exact .inr ⟨t, by rwa [List.append_nil], rfl⟩
      | cons token rest => cases h
  · intro h
    rcases h with ⟨rfl, rfl⟩ | ⟨t, ht, rfl⟩
    · rfl
    · have hs : sum (factor meaning limit) (tokens ++ []) = .ok (t.value meaning, []) :=
        (ht.read [] nofun).stop nofun
      rw [List.append_nil] at hs
      rw [if_neg (by simpa using ht.ne_nil), hs]
      rfl

end Expression

end Stencil
