/-!
# Outlines of structured values

A value is shown by the name of its shape with its parts in brackets, either on one line or with
every part on a line of its own.
-/

namespace Kennel.Text

inductive Brackets
  | round
  | curly
  | square
  deriving DecidableEq

/-- The outline of a value. -/
inductive Outline
  | leaf (text : String)
  | field (label : String) (value : Outline)
  | group (head : String) (brackets : Brackets) (parts : List Outline)

namespace Brackets

/-- Parts on one line. A head without parts stands alone, but an empty list keeps its brackets. -/
def flat : Brackets → List String → String
  | .square, parts => "[" ++ ", ".intercalate parts ++ "]"
  | _, [] => ""
  | .round, parts => "(" ++ ", ".intercalate parts ++ ")"
  | .curly, parts => " \x7b " ++ ", ".intercalate parts ++ " \x7d"

/-- Parts on lines of their own, each indented by `pad` and four blanks, the closing bracket by
`pad`. -/
def tall (pad : String) : Brackets → List String → String
  | .square, [] => "[]"
  | _, [] => ""
  | b, parts =>
    let (first, last) := match b with
      | .round => ("(", ")")
      | .curly => (" \x7b", "\x7d")
      | .square => ("[", "]")
    first ++ "\n" ++ String.join (parts.map fun p => pad ++ "    " ++ p ++ ",\n") ++ pad ++ last

end Brackets

namespace Outline

mutual

/-- The outline on one line. -/
def flat : Outline → String
  | .leaf text => text
  | .field label value => label ++ ": " ++ value.flat
  | .group head brackets parts => head ++ brackets.flat (flatAll parts)

def flatAll : List Outline → List String
  | [] => []
  | p :: ps => p.flat :: flatAll ps

end

mutual

/-- The outline over several lines, where the line it starts on is indented by `pad`. -/
def tall (pad : String) : Outline → String
  | .leaf text => text
  | .field label value => label ++ ": " ++ value.tall pad
  | .group head brackets parts => head ++ brackets.tall pad (tallAll (pad ++ "    ") parts)

def tallAll (pad : String) : List Outline → List String
  | [] => []
  | p :: ps => p.tall pad :: tallAll pad ps

end

end Outline

end Kennel.Text
