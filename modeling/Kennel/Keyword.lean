import Kennel.Op
import Kennel.Text.Decimal

/-!
# Words

Each word of a source text is a keyword, an integer or a plain name. Spellings are exact: case
matters, and a word is a keyword only as a whole. A block is closed by either of two spellings.
-/

namespace Kennel

inductive Keyword
  | assign
  | op (o : Op)
  | branch
  | loop
  /-- Separator after the condition of a branch. -/
  | thenMark
  /-- Separator after the condition of a loop. -/
  | doMark
  | otherwise
  | close
  deriving DecidableEq

namespace Keyword

def spellings : List (String × Keyword) :=
  [("AWOO", .assign), ("GRRR", .loop), ("YIP", .op .less), ("BOW", .doMark), ("RUF?", .branch),
   ("YAP", .op .greater), ("VUH", .thenMark), ("BARK", .op .subtract), ("ROWH", .otherwise),
   ("WOOF", .op .add), ("ARF", .op .multiply), ("ARRUF", .close), ("BORF", .close)]

def ofWord? (w : String) : Option Keyword := spellings.lookup w

/-- How messages call the keyword. -/
def describe : Keyword → String
  | .assign => "assignment `AWOO`"
  | .loop => "`GRRR`"
  | .op .less => "operator `YIP`"
  | .doMark => "`BOW`"
  | .branch => "`RUF?`"
  | .op .greater => "operator `YAP`"
  | .thenMark => "`VUH`"
  | .op .subtract => "operator `BARK`"
  | .otherwise => "`ROWH`"
  | .op .add => "operator `WOOF`"
  | .op .multiply => "operator `ARF`"
  | .close => "block end"

def name : Keyword → String
  | .assign => "Assign"
  | .loop => "While"
  | .op .less => "LessThan"
  | .doMark => "Do"
  | .branch => "If"
  | .op .greater => "GreaterThan"
  | .thenMark => "Then"
  | .op .subtract => "Subtract"
  | .otherwise => "Else"
  | .op .add => "Add"
  | .op .multiply => "Multiply"
  | .close => "End"

def op? : Keyword → Option Op
  | .op o => some o
  | _ => none

/-- Zero for a keyword that cannot continue an expression. -/
def priority (k : Keyword) : Nat := (k.op?.map Op.priority).getD 0

/-- The keywords that close a block. -/
def isTerminator : Keyword → Bool
  | .otherwise | .close => true
  | _ => false

end Keyword

/-- What a word is to the reader of programs. -/
inductive WordClass
  | keyword (k : Keyword)
  | integer
  | plain
  deriving DecidableEq

def classify (w : String) : WordClass :=
  match Keyword.ofWord? w with
  | some k => .keyword k
  | none => if Text.isNumeral w then .integer else .plain

end Kennel
