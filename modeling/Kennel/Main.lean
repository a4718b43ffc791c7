import Kennel.Cli.Command

/-!
# The program

The command line on the real file system and the standard streams.
-/

namespace Kennel

def usage : String := "usage: kennel [--eval] [--registers N] [-o FILE] [FILE]"

/-- Everything on standard input. -/
partial def readAll (stream : IO.FS.Stream) (soFar : ByteArray) : IO ByteArray := do
  let chunk ← stream.read 65536
  if chunk.isEmpty then return soFar else readAll stream (soFar ++ chunk)

/-- The first result that comes when the fuel is doubled again and again. -/
partial def settle {α : Type} (result : Nat → Option α) (fuel : Nat) : IO α := do
  match result fuel with
  | some a => return a
  | none => settle result (2 * fuel)

def host : Cli.Host IO where
  contents path := do
    try return some (← IO.FS.readBinFile path)
    catch _ => return none
  input := do readAll (← IO.getStdin) .empty
  print := IO.print
  save path contents := do
    try
      IO.FS.writeBinFile path contents
      return true
    catch _ => return false
  report := IO.eprintln
  advise := IO.eprintln usage
  await result := settle result 65536

end Kennel

open Kennel in
def main (args : List String) : IO UInt32 := do
  return (← Cli.command host Cli.Options.ofArgs args).toUInt32
