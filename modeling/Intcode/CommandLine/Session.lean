import Intcode.CommandLine.Options
import Intcode.Disassembly
import Intcode.Machine.Control
import Intcode.Program

namespace Intcode.CommandLine

/-- What a run of the command leaves behind. -/
structure Outcome where
  exitCode : Nat
  stdout : String
  stderr : String
deriving DecidableEq, Repr

/-- One turn of a session: the machine runs for at most `cycles` instructions, and an output goes
to the console. The session goes on if there is no answer. -/
def turn (cycles : Nat) (m : Machine Empty) : Option (Except Failure Unit) × Machine Empty :=
  match m.execute cycles with
  | (.error e, m) => (some (.error e), m)
  | (.ok .halted, m) => (some (.ok ()), m)
  | (.ok .running, m) => (none, m)
  | (.ok (.output v), m) => (none, { m with console := m.console.print (v.text ++ "\n") })

/-- Takes turns until the machine halts or fails, `fuel` of them at most. -/
def session? (cycles : Nat) : Nat → Machine Empty → Option (Except Failure Unit × Machine Empty)
  | 0, _ => none
  | fuel + 1, m =>
    match turn cycles m with
    | (some answer, m) => some (answer, m)
    | (none, m) => session? cycles fuel m

def applyPatches (s : Store) : List Patch → Except Failure Store
  | [] => .ok s
  | p :: ps => do
    let s ← s.write p.address p.value
    applyPatches s ps

/-- The program as it is listed or started. -/
def prepare (o : Options) (text : String) : Except Failure (Machine Empty) := do
  let image ← Program.parse text
  let store ← applyPatches (.ofList image) o.patches
  return { store, inputs := o.inputs }

/-- Errors are shown in bold, with the codes that turn this on and off in a terminal. -/
def errorText (s : String) : String := "\x1b[1m" ++ s ++ "\x1b[0m\n"

def Outcome.failure (stdout : String) (e : Failure) : Outcome :=
  { exitCode := 1, stdout, stderr := errorText e.text }

/-- What is left to be done once the program has been read: to print an outcome that is settled, or
to play a session. -/
inductive Task
  | print (outcome : Outcome)
  | play (cycles : Nat) (m : Machine Empty)

namespace Task

def ofText (o : Options) (text : String) : Task :=
  match prepare o text with
  | .error e => .print (.failure "" e)
  | .ok m =>
    if o.list then
      .print { exitCode := 0, stdout := listingText (disassemble m.store), stderr := "" }
    else .play o.cycles m

/-- The outcome where `typed` is what the console has to read. There is none if a session takes more
than `fuel` turns. -/
def outcome? (fuel : Nat) (typed : List UInt8) : Task → Option Outcome
  | .print outcome => some outcome
  | .play cycles m =>
    (session? cycles fuel { m with console := { unread := typed } }).map fun (answer, m) ↦
      match answer with
      | .ok () => { exitCode := 0, stdout := m.console.printed, stderr := "" }
      | .error e => .failure m.console.printed e

end Task

/-- Stands for what is said of arguments that cannot be read. Nothing depends on the wording. -/
def usageText : String := "Usage: intcode [OPTIONS] <PROGRAM>\n"

/-- Stands for the help on the arguments, as `usageText` does for the complaint. -/
def helpText : String :=
  "Run an Intcode program, printing each output on its own line\n\n" ++ usageText ++
  "\nArguments:\n" ++
  "  <PROGRAM>  Program file of comma separated integers\n" ++
  "\nOptions:\n" ++
  "  -i, --input <INPUTS>   Queue a value as input; may be repeated\n" ++
  "  -s, --set <PATCHES>    Patch memory before running, as ADDR=VALUE; may be repeated\n" ++
  "      --list             Print a disassembly of the patched program and exit\n" ++
  "      --cycles <CYCLES>  Instructions executed between Ctrl-C checks [default: 5000]\n" ++
  "  -v, --verbose...       More logging on stderr: -v debug, -vv trace\n" ++
  "  -h, --help             Print help\n" ++
  "  -V, --version          Print version\n"

def Stop.outcome : Stop → Outcome
  | .usage =>
    { exitCode := 2, stdout := "", stderr := usageText }
  | .help => { exitCode := 0, stdout := helpText, stderr := "" }
  | .version => { exitCode := 0, stdout := "intcode 0.9.0\n", stderr := "" }

/-- The text of a program file, or the message for a file that could not be read, `name` being its
name. -/
def programText (name : String) (file : Except String ByteArray) : Except String String :=
  match file with
  | .error reason => .error (name ++ ": " ++ reason)
  | .ok bytes =>
    match String.fromUTF8? bytes with
    | none => .error (name ++ ": stream did not contain valid UTF-8")
    | some text => .ok text

def Task.ofFile (o : Options) (file : Except String ByteArray) : Task :=
  match programText o.program file with
  | .error message => .print { exitCode := 1, stdout := "", stderr := errorText message }
  | .ok text => .ofText o text

/-- The options that the arguments ask for, or the outcome of a run that ends with reading them. -/
def readArguments (args : List String) : Except Outcome Options :=
  (Options.ofArguments args).mapError Stop.outcome

/-- The outcome for these arguments where `read` makes options of them and `readFile` gives the
content of a file, or the reason why it cannot be read. -/
def run? (read : List String → Except Outcome Options) (fuel : Nat) (args : List String)
    (readFile : String → Except String ByteArray) (typed : List UInt8) : Option Outcome :=
  match read args with
  | .error outcome => some outcome
  | .ok o => (Task.ofFile o (readFile o.program)).outcome? fuel typed

end Intcode.CommandLine
