import Kennel.Reading.Cause

/-!
# Cursors over words

A cursor stands between the words it has passed and the words ahead, and moves one word at a time
either way.
-/

namespace Kennel.Reading

structure Cursor where
  /-- The words passed, last first. -/
  passed : List String
  ahead : List String
  deriving DecidableEq

namespace Cursor

/-- The cursor in front of the first word. -/
def ofWords (ws : List String) : Cursor := ⟨[], ws⟩

def position (c : Cursor) : Nat := c.passed.length

def hasNext (c : Cursor) : Bool := !c.ahead.isEmpty

/-- The next word, and the cursor behind it. -/
def next (c : Cursor) : Except Fault (String × Cursor) :=
  match c.ahead with
  | [] => .error (.of .exhausted)
  | w :: ws => .ok (w, ⟨w :: c.passed, ws⟩)

/-- The cursor one word back, unless it stands in front of the first word. -/
def back? (c : Cursor) : Option Cursor :=
  match c.passed with
  | [] => none
  | w :: ws => some ⟨ws, w :: c.ahead⟩

/-- What is wrong with moving back in front of the first word. -/
def atStart : String := "push_back called before any token was consumed"

end Cursor

end Kennel.Reading
