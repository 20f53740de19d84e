import Stencil.Fault

/-! Arithmetic over a list of tokens. A sum is a chain of terms, a term a chain of factors, both taken
from the left; a factor is an operand, a sum in parentheses, or a minus before a factor. At most
`limit` parentheses and minuses may be open at once. Whether a list is accepted depends on its tokens
alone and not on what the operands stand for. -/

namespace Stencil.Expression

inductive Token (α : Type) where
  | operator (operator : Operator)
  | opening
  | closing
  | operand (operand : α)
deriving DecidableEq, Repr

/-- Reads a value off the front of a list and gives back the rest. -/
abbrev Reader (α : Type) :=
  List (Token α) → Except ExpressionFault (Value × List (Token α))

variable {α : Type}

/-- Reads items with operators of one kind between them. -/
def chain (joins : Operator → Bool) (item : Reader α) : Reader α := fun tokens => do
  let (first, rest) ← item tokens
  more rest.length first rest
where
  /-- Each round takes an operator away, so as many rounds as tokens are enough. -/
  more : Nat → Value → Reader α
    | rounds + 1, value, .operator o :: rest =>
      if joins o then do
        let (next, rest) ← item rest
        more rounds (o.apply value next) rest
      else .ok (value, .operator o :: rest)
    | _, value, rest => .ok (value, rest)

def sum (factor : Reader α) : Reader α :=
  chain Operator.additive (chain Operator.multiplicative factor)

def limit : Nat := 64

/-- Reads a factor inside which `room` more parentheses and minuses can be opened. -/
def factor (meaning : α → Value) : Nat → Reader α
  | _, [] => .error .endOfExpression
  | _, .operand x :: rest => .ok ((meaning x).numeral, rest)
  | _, .closing :: _ => .error .misplacedClosing
  | 0, .opening :: _ => .error (.tooDeep limit)
  | room + 1, .opening :: rest => do
    match ← sum (factor meaning room) rest with
    | (value, .closing :: rest) => .ok (value, rest)
    | _ => .error .openParenthesis
  | 0, .operator .sub :: _ => .error (.tooDeep limit)
  | room + 1, .operator .sub :: rest => do
    let (value, rest) ← factor meaning room rest
    .ok (value.neg, rest)
  | _, .operator o :: _ => .error (.misplacedOperator o)

/-- The value of the whole list, null if it is empty. -/
def evaluate (meaning : α → Value) (tokens : List (Token α)) : Except ExpressionFault Value :=
  if tokens.isEmpty then .ok .null
  else do
    let (value, rest) ← sum (factor meaning limit) tokens
    if rest.isEmpty then .ok value else .error (.leftover (tokens.length - rest.length + 1))

/-- A word as a token: an operator, a parenthesis, or else a text. -/
def ofWord (word : String) : Token Value :=
  match word with
  | "(" => .opening
  | ")" => .closing
  | word =>
    match Operator.ofSymbol? word with
    | some o => .operator o
    | none => .operand (.str word)

def evaluateWords (words : List String) : Except ExpressionFault Value :=
  evaluate id (words.map ofWord)

end Stencil.Expression
