import Intcode.CommandLine.Session

namespace Intcode.CommandLine

/-- Why a file could not be read. -/
def reason : IO.Error → String
  | .noFileOrDirectory _ _ _ => "No such file or directory (os error 2)"
  | .permissionDenied _ _ _ => "Permission denied (os error 13)"
  | .inappropriateType none _ _ => "Is a directory (os error 21)"
  | .inappropriateType (some _) _ _ => "Not a directory (os error 20)"
  | e => toString e

def readFile (name : String) : IO (Except String ByteArray) := do
  match ← (IO.FS.readBinFile name).toBaseIO with
  | .ok bytes => return .ok bytes
  | .error e => return .error (reason e)

def report (o : Outcome) : IO UInt32 := do
  (← IO.getStdout).putStr o.stdout
  (← IO.getStderr).putStr o.stderr
  return o.exitCode.toUInt32

/-- The bytes up to the end of the line, put in front of `line` in reverse. -/
partial def readLine (line : List UInt8) : IO (List UInt8) := do
  let next ← (← IO.getStdin).read 1
  match next.toList with
  | [] => return line.reverse
  | b :: _ => if b = 10 then return (b :: line).reverse else readLine (b :: line)

/-- Plays a session one instruction a turn. A line is read only when the program asks for it, and
what was printed is shown before that. -/
partial def play (cycles : Nat) (m : Machine Empty) : IO UInt32 := do
  let asks := m.asksConsole ∧ 0 < cycles
  let m ←
    if asks then
      (← IO.getStdout).putStr "?? "
      (← IO.getStdout).flush
      let line ← readLine []
      pure { m with console := { unread := line } }
    else pure m
  let (answer, m) := turn (min cycles 1) m
  (← IO.getStdout).putStr (if asks then "" else m.console.printed)
  match answer with
  | none => play cycles { m with console := {} }
  | some (.ok ()) => return 0
  | some (.error e) => report (.failure "" e)

end Intcode.CommandLine

open Intcode CommandLine in
def main (args : List String) : IO UInt32 := do
  match readArguments args with
  | .error outcome => report outcome
  | .ok o =>
    match Task.ofFile o (← readFile o.program) with
    | .print outcome => report outcome
    | .play cycles m => play cycles m
