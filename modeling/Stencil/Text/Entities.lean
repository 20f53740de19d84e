/-! Markup characters in text that is to stand in a page: each is written as its entity. The
ampersand stays as it is. -/

namespace Stencil.Text.Entities

def entity (c : Char) : List Char :=
  match c with
  | '<' => "&lt;".toList
  | '>' => "&gt;".toList
  | '"' => "&quot;".toList
  | '\x27' => "&apos;".toList
  | c => [c]

def escape (s : String) : String :=
  String.ofList (s.toList.flatMap entity)

end Stencil.Text.Entities
