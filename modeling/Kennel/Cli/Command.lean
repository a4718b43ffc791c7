import Kennel.Cli.Options
import Kennel.Cli.Path
import Kennel.Eval.Run
import Kennel.Lower.Program
import Kennel.Reading.Reader

/-!
# The command line

A command goes through its stages in a fixed order: arguments, register count, reading, parsing,
evaluation or lowering, output. The first stage that fails decides the message, and output is the
only stage with an effect.

`command` is written against the few things that it asks of the system it runs on (`Host`), and
against any way to read the arguments.
-/

namespace Kennel.Cli

open Lower (scratchRegisters)

/-- What a command that succeeds puts out. -/
inductive Action
  | print (text : String)
  | save (path text : String)
  deriving DecidableEq

namespace Options

/-- The scratch registers that may be used, a count from one to all of them. -/
def registerLimit (o : Options) : Except String Nat :=
  let n := o.registers.getD scratchRegisters.length
  if 1 ≤ n ∧ n ≤ scratchRegisters.length then .ok n
  else
    .error ("--registers must be between 1 and " ++ Text.numeral scratchRegisters.length ++
      ", got " ++ Text.numeral n)

/-- The source text in the bytes of the input, which are missing if it cannot be read. -/
def source (o : Options) (bytes : Option ByteArray) : Except String String :=
  match bytes.bind String.fromUTF8?, o.input with
  | some text, _ => .ok text
  | none, some path => .error ("could not read " ++ path)
  | none, none => .error "stream did not contain valid UTF-8"

/-- Where a listing goes; standard output without a path. -/
def destination (o : Options) : Option String := o.output <|> o.input.map Path.listing

end Options

/-- The line that shows the value of a program. -/
def valueLine : Option Int64 → String
  | some v => Text.signed v.toInt ++ "\n"
  | none => "(no value)\n"

/-- The lines of a listing, each with its line break. -/
def listingText (l : Asm.Listing) : String := String.join (l.lines.map (· ++ "\n"))

/-- What is to be put out for a source text. There is no result if an evaluation does not end
within the fuel. -/
def Options.action (o : Options) (fuel limit : Nat) (source : String) :
    Option (Except String Action) :=
  match Reading.parse source with
  | .error f => some (.error (f.message Reading.Cause.message))
  | .ok p =>
    if o.eval then
      (Eval.evaluate fuel p).map fun
        | .ok v => .ok (.print (valueLine v))
        | .error c => .error c.message
    else
      match Lower.generate limit p with
      | .error f => some (.error (f.message Lower.Cause.message))
      | .ok l =>
        match o.destination with
        | some path => some (.ok (.save path (listingText l)))
        | none => some (.ok (.print (listingText l)))

/-- The message when an output file cannot be created. -/
def cannotCreate (path : String) : String := "could not create " ++ path

/-- What a command asks of the system it runs on. -/
structure Host (m : Type → Type) where
  /-- The contents of a file, if it can be read. -/
  contents : String → m (Option ByteArray)
  /-- Everything on standard input. -/
  input : m ByteArray
  print : String → m Unit
  /-- Create a file with these contents or overwrite it, and say whether that could be done. -/
  save : String → ByteArray → m Bool
  /-- Show a message on standard error. -/
  report : String → m Unit
  /-- Show on standard error how the command is used. -/
  advise : m Unit
  /-- What something comes to with as much fuel as it takes. -/
  await : (Nat → Option (Except String Action)) → m (Except String Action)

namespace Host

variable {m : Type → Type} [Monad m] (host : Host m)

def fail (message : String) : m Nat := do
  host.report message
  return 1

/-- The bytes of the input, if it can be read. -/
def fetch (o : Options) : m (Option ByteArray) :=
  match o.input with
  | some path => host.contents path
  | none => do return some (← host.input)

def perform : Action → m Nat
  | .print text => do
    host.print text
    return 0
  | .save path text => do
    if ← host.save path text.toUTF8 then return 0 else host.fail (cannotCreate path)

end Host

/-- The whole command. Its result is zero on success, one otherwise. -/
def command {m : Type → Type} [Monad m] (host : Host m) (options : List String → Option Options)
    (args : List String) : m Nat := do
  match options args with
  | none =>
    host.advise
    return 1
  | some o =>
    match o.registerLimit with
    | .error message => host.fail message
    | .ok limit =>
      match o.source (← host.fetch o) with
      | .error message => host.fail message
      | .ok text =>
        match ← host.await (o.action · limit text) with
        | .error message => host.fail message
        | .ok action => host.perform action

end Kennel.Cli
