/-!
# White space and words

- `isSpace`: the White_Space property.
- `words`: the maximal runs of a text without white space, in order.
-/

namespace Kennel.Text

/-- The White_Space property of a character. The information separators U+001C to U+001F and the
zero width characters do not have it. -/
def isSpace (c : Char) : Bool :=
  let n := c.toNat
  (0x9 ≤ n && n ≤ 0xd) || n == 0x20 || n == 0x85 || n == 0xa0 || n == 0x1680 ||
    (0x2000 ≤ n && n ≤ 0x200a) || n == 0x2028 || n == 0x2029 || n == 0x202f || n == 0x205f ||
    n == 0x3000

/-- Put the word whose characters are `pending`, last first, in front of `rest`. No characters, no
word. -/
def addWord (pending : List Char) (rest : List String) : List String :=
  if pending.isEmpty then rest else String.ofList pending.reverse :: rest

/-- The words of `cs`, where `pending` holds the characters of a word already begun, last first. -/
def wordsFrom (pending : List Char) : List Char → List String
  | [] => addWord pending []
  | c :: cs =>
    if isSpace c then addWord pending (wordsFrom [] cs) else wordsFrom (c :: pending) cs

/-- The words of a text: its maximal runs of characters that are not white space. -/
def words (s : String) : List String := wordsFrom [] s.toList

end Kennel.Text
