import Kennel.Lower.Pool
import Kennel.Text.Decimal

/-!
# Command-line options

    [--eval] [--registers N] [-o FILE] [FILE]

An option is given at most once. The value of `-o`, `--output` and `--registers` is attached, with
or without `=`, or is the next argument; a next argument that itself looks like an option is no
value. `-o` and `--output` need their value, and `--registers` without one allows every register.
After `--` every argument names a file.
-/

namespace Kennel.Cli

structure Options where
  /-- The file to read; standard input without it. -/
  input : Option String
  output : Option String
  /-- Run the program instead of compiling it. -/
  eval : Bool
  /-- How many scratch registers may be used; all of them without it. -/
  registers : Option Nat
  deriving DecidableEq

/-- An argument by itself. -/
inductive Arg
  /-- Only file names follow. -/
  | separator
  | file (path : String)
  | eval
  | output (attached : Option String)
  | registers (attached : Option String)
  | unknown
  deriving DecidableEq

namespace Arg

/-- The value behind the equals signs of an option. -/
def attachedValue (cs : List Char) : String := String.ofList (cs.dropWhile (· == '='))

/-- An option by its long name, which ends at the first equals sign. -/
def ofLong (cs : List Char) : Arg :=
  let name := String.ofList (cs.takeWhile (· != '='))
  let attached := match cs.dropWhile (· != '=') with
    | [] => none
    | value => some (attachedValue value)
  if name = "output" then .output attached
  else if name = "registers" then .registers attached
  else if name = "eval" then .eval
  else .unknown

/-- What an argument is before any `--`. A single dash is the name of a file, and a long name may
have further dashes in front. -/
def ofText (text : String) : Arg :=
  match text.toList with
  | ['-', '-'] => .separator
  | '-' :: '-' :: cs => ofLong (cs.dropWhile (· == '-'))
  | ['-'] => .file text
  | ['-', 'o'] => .output none
  | '-' :: 'o' :: cs => .output (some (attachedValue cs))
  | '-' :: _ => .unknown
  | _ => .file text

end Arg

/-- Whether an argument may be the value of the option before it. -/
def isValue (text : String) : Bool :=
  match text.toList with
  | ['-'] => true
  | '-' :: _ => false
  | _ => true

/-- Read a register count: an unsigned 64-bit number, with a plus sign allowed in front. -/
def readCount (text : String) : Option Nat :=
  let digits := match text.toList with
    | '+' :: ds => String.ofList ds
    | _ => text
  match Text.readNumeral digits with
  | some n => if n < 18446744073709551616 then some n else none
  | none => none

/-- What the next argument is taken for. -/
inductive Awaiting
  /-- An option or the name of a file. -/
  | nothing
  /-- The value of `-o` or `--output`. -/
  | output
  /-- The value of `--registers`, which may be missing. -/
  | registers
  /-- The name of a file, whatever it looks like. -/
  | files
  deriving DecidableEq

namespace Options

def initial : Options := ⟨none, none, false, none⟩

def addInput (o : Options) (path : String) : Option Options :=
  if o.input.isSome then none else some { o with input := some path }

def addOutput (o : Options) (path : String) : Option Options :=
  if o.output.isSome then none else some { o with output := some path }

def addEval (o : Options) : Option Options :=
  if o.eval then none else some { o with eval := true }

def addCount (o : Options) (n : Nat) : Option Options :=
  if o.registers.isSome then none else some { o with registers := some n }

def addRegisters (o : Options) (text : String) : Option Options :=
  (readCount text).bind o.addCount

/-- `--registers` without a value. -/
def addEveryRegister (o : Options) : Option Options := o.addCount Lower.scratchRegisters.length

/-- Add an argument that is no value of an option before it. -/
def addArg (o : Options) : Arg → Option (Options × Awaiting)
  | .separator => some (o, .files)
  | .file path => (o.addInput path).map (·, .nothing)
  | .eval => o.addEval.map (·, .nothing)
  | .output (some value) => (o.addOutput value).map (·, .nothing)
  | .output none => some (o, .output)
  | .registers (some value) => (o.addRegisters value).map (·, .nothing)
  | .registers none => some (o, .registers)
  | .unknown => none

/-- Add the next argument. There is no result if it makes no sense there. -/
def add : Options × Awaiting → String → Option (Options × Awaiting)
  | (o, .nothing), a => o.addArg (Arg.ofText a)
  | (o, .output), a => if isValue a then (o.addOutput a).map (·, .nothing) else none
  | (o, .registers), a =>
    if isValue a then (o.addRegisters a).map (·, .nothing)
    else o.addEveryRegister.bind (·.addArg (Arg.ofText a))
  | (o, .files), a => (o.addInput a).map (·, .files)

/-- The options once no argument is left. -/
def finish : Options × Awaiting → Option Options
  | (o, .nothing) => some o
  | (_, .output) => none
  | (o, .registers) => o.addEveryRegister
  | (o, .files) => some o

/-- The options in a list of arguments. -/
def ofArgs (args : List String) : Option Options :=
  (args.foldlM add (initial, .nothing)).bind finish

end Options

end Kennel.Cli
