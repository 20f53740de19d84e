import Stencil.Text.Blank
import Stencil.Text.Mark

/-! The words of a condition. Blanks end a word and are in none, but for quoted texts. Parentheses
stand alone, and runs of operator characters are cut into operators. -/

namespace Stencil.Condition.Words
open Text.Blank Text.Mark

def isParenthesis (c : Char) : Bool :=
  c = '(' || c = ')'

def isSymbol (c : Char) : Bool :=
  ['<', '>', '=', '!', '&', '|', '/', '-', '+', '*'].contains c

/-- Goes on with a word that has begun. A quotation mark inside a word is part of it. -/
def isInner (c : Char) : Bool :=
  !isBlank c && !isParenthesis c && !isSymbol c

/-- The longer operators come first. -/
def operators : List (List Char) :=
  ["===", "!==", "==", "!=", "<=", ">=", "&&", "||", "<", ">", "+", "-", "*", "/"].map (·.toList)

/-- How much of a run of operator characters makes one word: the first operator it starts with, or
three characters of no operator. -/
def pieceLength (run : List Char) : Nat :=
  ((operators.find? (·.isPrefixOf run)).map List.length).getD 3

theorem pieceLength_pos (run : List Char) : 0 < pieceLength run := by
  simp only [pieceLength]
  cases h : operators.find? (·.isPrefixOf run) with
  | none => decide
  | some op =>
    have : ∀ op ∈ operators, 0 < op.length := by decide
    simpa using this op (List.mem_of_find?_eq_some h)

def cut (run : List Char) : List (List Char) :=
  match run with
  | [] => []
  | c :: rest =>
    (c :: rest).take (pieceLength (c :: rest)) :: cut ((c :: rest).drop (pieceLength (c :: rest)))
termination_by run.length
decreasing_by
  have := pieceLength_pos (c :: rest)
  simp only [List.length_drop, List.length_cons]
  omega

/-- A quoted text after its first mark: up to the next such mark, or all that is left. -/
def quoted (mark : Char) : List Char → List Char × List Char
  | [] => ([], [])
  | c :: rest =>
    if c = mark then ([c], rest)
    else
      let (text, rest) := quoted mark rest
      (c :: text, rest)

theorem length_quoted_le (mark : Char) (s : List Char) : (quoted mark s).2.length ≤ s.length := by
  induction s with
  | nil => simp [quoted]
  | cons c rest ih =>
    simp only [quoted]
    split
    · simp
    · simpa using Nat.le_succ_of_le ih

def split (s : List Char) : List (List Char) :=
  match s with
  | [] => []
  | c :: rest =>
    if isBlank c then split rest
    else if isMark c then (c :: (quoted c rest).1) :: split (quoted c rest).2
    else if isParenthesis c then [c] :: split rest
    else if isSymbol c then cut (c :: rest.takeWhile isSymbol) ++ split (rest.dropWhile isSymbol)
    else (c :: rest.takeWhile isInner) :: split (rest.dropWhile isInner)
termination_by s.length
decreasing_by
  · simp
  · have := length_quoted_le c rest
    simp only [List.length_cons]
    omega
  · simp
  · have := (rest.dropWhile_sublist isSymbol).length_le
    simp only [List.length_cons]
    omega
  · have := (rest.dropWhile_sublist isInner).length_le
    simp only [List.length_cons]
    omega

end Stencil.Condition.Words
