import Stencil.Accessor
import Stencil.Number.Notation
import Stencil.Operator
import Stencil.Relation
import Stencil.Value.Inspect

/-! What can be wrong with a template, with a condition in it and with the data it is given, and how
each fault is told. -/

namespace Stencil

/-- What can be wrong with a condition. The source of the condition is quoted where it helps. -/
inductive ExpressionFault where
  | secondRelation (symbol : String) (first : Relation) (source : String)
  | unknownOperator (symbol source : String)
  | unknownVariable (unknown : UnknownVariable)
  | missingLeft (relation : Relation) (source : String)
  | missingRight (relation : Relation) (source : String)
  | emptyClause (source : String)
  | tooDeep (limit : Nat)
  | openParenthesis
  | misplacedOperator (operator : Operator)
  | misplacedClosing
  | endOfExpression
  /-- The first token that is left over, counted from one. -/
  | leftover (position : Nat)
deriving DecidableEq, Repr

def ExpressionFault.message : ExpressionFault → String
  | .secondRelation symbol first source =>
    s!"bad operator \"{symbol}\" after {first.name} in \"{source}\""
  | .unknownOperator symbol source => s!"unknown operator \"{symbol}\" in \"{source}\""
  | .unknownVariable unknown => unknown.message
  | .missingLeft relation source => s!"missing left operand of {relation.name} in \"{source}\""
  | .missingRight relation source => s!"missing right operand of {relation.name} in \"{source}\""
  | .emptyClause source => s!"empty clause in \"{source}\""
  | .tooDeep limit => s!"expression nesting exceeds the limit of {limit}"
  | .openParenthesis => "unterminated parenthesized factor, expected \")\""
  | .misplacedOperator operator =>
    s!"unexpected operator {operator.name} where an operand was expected"
  | .misplacedClosing => "unexpected \")\" where an operand was expected"
  | .endOfExpression => "unexpected end of expression, expected an operand"
  | .leftover position => s!"unexpected token at position {position} after a complete expression"

/-- What can be wrong with a line of a template. -/
inductive SyntaxFault where
  | strayRight (delimiter : String)
  | unterminated
  | unterminatedBefore (delimiter : String)
  | emptyDirective
  | namelessCall
  | unknownVariable (unknown : UnknownVariable)
  | missingArgument (keyword : String)
  | afterElse (tail : String)
  | emptyName
  | unknownDirective (body : String)
  | sourceNotPath (argument : String)
  | strayElse
  | strayClosing (keyword : String)
  | unknownBlock (keyword : String)
  | wrongClosing (expected found : String)
  | unclosed (keyword : String)
  | elseNotLast
  | expression (fault : ExpressionFault)
deriving DecidableEq, Repr

def SyntaxFault.message : SyntaxFault → String
  | .strayRight delimiter => s!"unexpected right delimiter \"{delimiter}\""
  | .unterminated => "unterminated directive"
  | .unterminatedBefore delimiter => s!"unterminated directive before \"{delimiter}\""
  | .emptyDirective => "empty directive"
  | .namelessCall => "helper call without a name"
  | .unknownVariable unknown => unknown.message
  | .missingArgument keyword => s!"\"{keyword}\" requires an expression"
  | .afterElse tail => s!"unexpected \"{tail}\" after \"else\""
  | .emptyName => "empty variable name"
  | .unknownDirective body => s!"unknown directive \"{body}\""
  | .sourceNotPath argument => s!"loop source must be a single path, got \"{argument}\""
  | .strayElse => "\"else\" outside of an \"if\" block"
  | .strayClosing keyword => s!"\"/{keyword}\" without an open block"
  | .unknownBlock keyword => s!"unknown block \"/{keyword}\""
  | .wrongClosing expected found => s!"expected \"/{expected}\" but found \"/{found}\""
  | .unclosed keyword => s!"unclosed \"{keyword}\" block"
  | .elseNotLast => "\"else\" must be the last branch of an \"if\" block"
  | .expression fault => fault.message

/-- What can be wrong with the data for a template. -/
inductive ContextFault where
  /-- Integers of 128 bits, signed or not, are in no range of a value. -/
  | wideInteger (hasSign : Bool)
  | badKey (key : Value)
  | valueWithoutKey

def ContextFault.message : ContextFault → String
  | .wideInteger hasSign => (if hasSign then "i128" else "u128") ++ " is not supported"
  | .badKey key => s!"Map key must be a string, got {key.inspect}"
  | .valueWithoutKey => "Missing key for value"

inductive Error where
  | located (line : Nat) (fault : SyntaxFault)
  | expression (fault : ExpressionFault)
  | undefinedHelper (name : String)
  | helper (name message : String)
  | nestingTooDeep (limit : Nat)
  | context (fault : ContextFault)

namespace Error

def message : Error → String
  | .located line fault => s!"Syntax error at line {line}: {fault.message}"
  | .expression fault => s!"Syntax error in expression: {fault.message}"
  | .undefinedHelper name => s!"Helper \"{name}\" is undefined"
  | .helper name message => s!"Helper \"{name}\" failed: {message}"
  | .nestingTooDeep limit => s!"Block nesting exceeds the limit of {limit}"
  | .context fault => s!"Context error: {fault.message}"

/-- Whether the error is mended by a change of the template alone. -/
def isSyntax : Error → Bool
  | .located .. | .expression _ => true
  | _ => false

end Error

end Stencil
