import Intcode.Patch

namespace Intcode.CommandLine

/-- What the arguments ask for. -/
structure Options where
  program : String
  inputs : List Word
  patches : List Patch
  list : Bool
  cycles : Nat
  verbosity : Nat
deriving DecidableEq, Repr

/-- Why no program is run. -/
inductive Stop
  | usage
  | help
  | version
deriving DecidableEq, Repr

/-- The options that take a value. -/
inductive Valued
  | input
  | patch
  | cycles
deriving DecidableEq, Repr

/-- How the next argument is read: as an option or the program, as the value of the option before
it, or, after `--`, as the program. -/
inductive Expected
  | anything
  | value (of : Valued)
  | program
deriving DecidableEq, Repr

/-- The options found in the arguments read so far. -/
structure Draft where
  program : Option String := none
  inputs : List Word := []
  patches : List Patch := []
  list : Bool := false
  cycles : Option Nat := none
  verbosity : Nat := 0
  expected : Expected := .anything
deriving DecidableEq, Repr

/-- An unsigned 64-bit numeral. It may have a plus sign but no minus sign. -/
def readCount? (cs : List Char) : Option Nat :=
  if cs.head? = some '-' then none
  else (Numeral.value? cs).bind fun z ↦ if z ≤ 18446744073709551615 then some z.toNat else none

namespace Draft

def setProgram (d : Draft) (arg : String) : Except Stop Draft :=
  if arg = "" ∨ d.program.isSome then .error .usage else .ok { d with program := some arg }

def setValue (d : Draft) (text : String) : Valued → Except Stop Draft
  | .input =>
    match Numeral.read text.toList with
    | .ok w => .ok { d with inputs := d.inputs ++ [w] }
    | .error _ => .error .usage
  | .patch =>
    match Patch.parse text with
    | .ok p => .ok { d with patches := d.patches ++ [p] }
    | .error _ => .error .usage
  | .cycles =>
    match d.cycles, readCount? text.toList with
    | none, some n => .ok { d with cycles := some n }
    | _, _ => .error .usage

/-- An option whose value is part of the argument or, if there is none, the next argument. -/
def takeValue (d : Draft) (of : Valued) (attached : Option String) : Except Stop Draft :=
  match attached with
  | some text => d.setValue text of
  | none => .ok { d with expected := .value of }

/-- The value that is left of an argument after a short option. An equals sign in front of it does
not belong to it. -/
def attached : List Char → Option String
  | [] => none
  | '=' :: rest => some (String.ofList rest)
  | rest => some (String.ofList rest)

/-- The short options after a single dash. One that takes a value takes the rest of the argument. -/
def takeShort (d : Draft) : List Char → Except Stop Draft
  | [] => .ok d
  | 'i' :: rest => d.takeValue .input (attached rest)
  | 's' :: rest => d.takeValue .patch (attached rest)
  | 'v' :: rest => takeShort { d with verbosity := d.verbosity + 1 } rest
  | 'h' :: _ => .error .help
  | 'V' :: _ => .error .version
  | _ :: _ => .error .usage

/-- The long option `name`, with the value after its equals sign, if it has one. -/
def takeLong (d : Draft) (name : String) (attached : Option String) : Except Stop Draft :=
  match name, attached with
  | "input", _ => d.takeValue .input attached
  | "set", _ => d.takeValue .patch attached
  | "cycles", _ => d.takeValue .cycles attached
  | "list", none => if d.list then .error .usage else .ok { d with list := true }
  | "verbose", none => .ok { d with verbosity := d.verbosity + 1 }
  | "help", none => .error .help
  | "version", none => .error .version
  | _, _ => .error .usage

def takeArgument (d : Draft) (arg : String) : Except Stop Draft :=
  match arg.toList with
  | ['-', '-'] => .ok { d with expected := .program }
  | '-' :: '-' :: cs =>
    match cs.span (· ≠ '=') with
    | (name, []) => d.takeLong (String.ofList name) none
    | (name, _ :: value) => d.takeLong (String.ofList name) (some (String.ofList value))
  | '-' :: c :: cs => d.takeShort (c :: cs)
  | _ => d.setProgram arg

/-- Only an input may begin with a dash where the value is an argument of its own, so that negative
words can be given. -/
def take (d : Draft) (arg : String) : Except Stop Draft :=
  match d.expected with
  | .anything => d.takeArgument arg
  | .program => d.setProgram arg
  | .value of =>
    if of ≠ .input ∧ arg.toList.head? = some '-' ∧ arg ≠ "-" then .error .usage
    else { d with expected := .anything }.setValue arg of

def finish (d : Draft) : Except Stop Options :=
  match d.expected, d.program with
  | .value _, _ | _, none => .error .usage
  | _, some program =>
    .ok
      { program
        inputs := d.inputs
        patches := d.patches
        list := d.list
        cycles := d.cycles.getD 5000
        verbosity := d.verbosity }

end Draft

/-- Arguments are read from the left, and the first that stops the program decides how. The program
leaves this to a library, and what it does with options does not depend on how they were read. -/
def Options.ofArguments (args : List String) : Except Stop Options := do
  let d ← args.foldlM Draft.take {}
  d.finish

end Intcode.CommandLine
