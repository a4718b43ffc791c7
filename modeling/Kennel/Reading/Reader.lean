import Kennel.Reading.Cursor
import Kennel.Reading.State
import Kennel.Text.Space

/-!
# Readers

A reader is a cursor with the number of the next branch or loop. Reading a program starts at the
cursor and takes words until they end or a fault stops it; the cursor and the numbering stay where
the reading stopped.
-/

namespace Kennel.Reading

structure Reader where
  cursor : Cursor
  /-- The number of the next branch or loop. As in a `State`, that it runs over is left out. -/
  nextId : Nat
  deriving DecidableEq

/-- Read from a state, with the words passed and those ahead. -/
def readFrom (s : State) (passed : List String) : List String → Except Fault Program × Reader
  | [] => (s.finish, ⟨⟨passed, []⟩, s.nextId⟩)
  | w :: ws =>
    match s.step w with
    | .ok s' => readFrom s' (w :: passed) ws
    | .error ⟨fault, true⟩ => (.error fault, ⟨⟨w :: passed, ws⟩, s.nextId⟩)
    | .error ⟨fault, false⟩ => (.error fault, ⟨⟨passed, w :: ws⟩, s.nextId⟩)

namespace Reader

def ofWords (ws : List String) : Reader := ⟨.ofWords ws, 0⟩

def ofSource (source : String) : Reader := ofWords (Text.words source)

/-- Hand out the next number. -/
def freshId (r : Reader) : Nat × Reader := (r.nextId, { r with nextId := r.nextId + 1 })

/-- Read a program from the words ahead. -/
def program (r : Reader) : Except Fault Program × Reader :=
  readFrom (.start r.nextId) r.cursor.passed r.cursor.ahead

end Reader

/-- The program of a source text. -/
def parse (source : String) : Except Fault Program := (Reader.ofSource source).program.1

end Kennel.Reading
