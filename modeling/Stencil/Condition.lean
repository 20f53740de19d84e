import Stencil.Condition.Words
import Stencil.Expression
import Stencil.Operand

/-! Conditions: clauses with `&&` or `||` between them, each clause an arithmetic expression, or two of
them with a relation between. The two connectives bind alike; a condition is decided from the left, as
soon as it can be. -/

namespace Stencil

inductive Connective where
  | and
  | or
deriving DecidableEq, Repr

structure Clause where
  left : List (Expression.Token Operand) := []
  relation : Option Relation := none
  right : List (Expression.Token Operand) := []

structure Condition where
  source : String
  clauses : List Clause
  connectives : List Connective

def Connective.ofSymbol? (s : String) : Option Connective :=
  match s with
  | "&&" => some .and
  | "||" => some .or
  | _ => none

namespace Clause

/-- Adds a token to the side that is being written. -/
def push (clause : Clause) (token : Expression.Token Operand) : Clause :=
  match clause.relation with
  | some _ => { clause with right := clause.right ++ [token] }
  | none => { clause with left := clause.left ++ [token] }

def evaluate (scope : Scope) (clause : Clause) : Except ExpressionFault Bool := do
  let left ← Expression.evaluate (Operand.resolve scope) clause.left
  match clause.relation with
  | some relation =>
    let right ← Expression.evaluate (Operand.resolve scope) clause.right
    return relation.holds left right
  | none => return left.truthy

/-- A side without a token, which only a clause without a relation may have, on its right. -/
def missing? (source : String) (clause : Clause) : Option ExpressionFault :=
  match clause.left.isEmpty, clause.relation with
  | true, some relation => some (.missingLeft relation source)
  | true, none => some (.emptyClause source)
  | false, some relation =>
    if clause.right.isEmpty then some (.missingRight relation source) else none
  | false, none => none

/-- The arithmetic of both sides is tried out with null for every operand. -/
def check (source : String) (clause : Clause) : Except ExpressionFault Unit :=
  match clause.missing? source with
  | some fault => .error fault
  | none => do
    let _ ← Expression.evaluate (fun _ => .null) clause.left
    let _ ← Expression.evaluate (fun _ => .null) clause.right

end Clause

namespace Condition

/-- The words of a condition, see `Words`. -/
def words (source : String) : List String :=
  (Words.split source.toList).map String.ofList

/-- The token a word is in an expression, unless it is a relation or a connective. -/
def token (source word : String) : Except ExpressionFault (Expression.Token Operand) :=
  match Operator.ofSymbol? word with
  | some o => .ok (.operator o)
  | none =>
    if word = "(" then .ok .opening
    else if word = ")" then .ok .closing
    else if word.toList.head?.any Words.isSymbol then .error (.unknownOperator word source)
    else ((Operand.parse word).map .operand).mapError .unknownVariable

/-- Sorts words into clauses, the first of which has been begun. -/
def clausesOf (source : String) (clause : Clause) :
    List String → Except ExpressionFault (List Clause × List Connective)
  | [] => .ok ([clause], [])
  | word :: rest =>
    match Relation.ofSymbol? word, Connective.ofSymbol? word with
    | some relation, _ =>
      match clause.relation with
      | some first => .error (.secondRelation word first source)
      | none => clausesOf source { clause with relation := some relation } rest
    | none, some connective => do
      let (clauses, connectives) ← clausesOf source {} rest
      return (clause :: clauses, connective :: connectives)
    | none, none => do
      let token ← token source word
      clausesOf source (clause.push token) rest

def parse (source : String) : Except ExpressionFault Condition := do
  let (clauses, connectives) ← clausesOf source {} (words source)
  clauses.forM (Clause.check source)
  return ⟨source, clauses, connectives⟩

/-- A false clause before `&&` and a true one before `||` decide. -/
def settle (scope : Scope) : List Clause → List Connective → Except ExpressionFault Bool
  | [], _ => .ok false
  | clause :: clauses, connectives => do
    let holds ← clause.evaluate scope
    match connectives with
    | .and :: rest => if holds then settle scope clauses rest else return false
    | .or :: rest => if holds then return true else settle scope clauses rest
    | [] => return holds

def evaluate (scope : Scope) (condition : Condition) : Except ExpressionFault Bool :=
  settle scope condition.clauses condition.connectives

/-- What stands beside the first condition that holds. No condition at all always holds. -/
def select {β : Type} (scope : Scope) :
    List (Option Condition × β) → Except ExpressionFault (Option β)
  | [] => .ok none
  | (none, chosen) :: _ => .ok (some chosen)
  | (some condition, chosen) :: rest => do
    if ← condition.evaluate scope then return some chosen else select scope rest

end Condition

end Stencil
