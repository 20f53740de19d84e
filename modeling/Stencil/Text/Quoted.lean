import Stencil.Text.Hidden

/-! Text written between double quotes so that every character can be told: the quote, the backslash
and the common controls have short escapes, other hidden characters stand as their code point in
hexadecimal. -/

namespace Stencil.Text.Quoted
open Hidden

def codePoint (c : Char) : List Char :=
  "\\u\x7b".toList ++ Nat.toDigits 16 c.toNat ++ ['\x7d']

def escaped (c : Char) : List Char :=
  match c with
  | '\x00' => ['\\', '0']
  | '\t' => ['\\', 't']
  | '\n' => ['\\', 'n']
  | '\r' => ['\\', 'r']
  | '"' => ['\\', '"']
  | '\\' => ['\\', '\\']
  | c => if isHidden c then codePoint c else [c]

def quote (s : String) : String :=
  String.ofList ('"' :: s.toList.flatMap escaped ++ ['"'])

end Stencil.Text.Quoted
