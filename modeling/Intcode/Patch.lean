import Intcode.Text.Blank
import Intcode.Text.Numeral
import Intcode.Text.Quoted

namespace Intcode

/-- A word to be written to the memory of a program before it runs. -/
structure Patch where
  address : Word
  value : Word
deriving DecidableEq, Repr

inductive PatchError
  | noEquals (text : List Char)
  | badAddress (text : List Char) (flaw : Numeral.Flaw)
  | badValue (text : List Char) (flaw : Numeral.Flaw)
deriving DecidableEq, Repr

def PatchError.message : PatchError → String
  | .noEquals s => "expected ADDR=VALUE, got " ++ String.ofList (Text.quoted s)
  | .badAddress s flaw =>
    "bad address " ++ String.ofList (Text.quoted s) ++ ": " ++ flaw.text
  | .badValue s flaw => "bad value " ++ String.ofList (Text.quoted s) ++ ": " ++ flaw.text

namespace Patch

/-- The patch written `ADDR=VALUE`, with blanks allowed around the two numerals. The first equals
sign divides them. -/
def parse (text : String) : Except PatchError Patch :=
  match text.toList.span (· ≠ '=') with
  | (_, []) => .error (.noEquals text.toList)
  | (left, _ :: right) =>
    match Numeral.read (Text.trim left) with
    | .error flaw => .error (.badAddress (Text.trim left) flaw)
    | .ok address =>
      match Numeral.read (Text.trim right) with
      | .error flaw => .error (.badValue (Text.trim right) flaw)
      | .ok value => .ok { address, value }

end Patch

end Intcode
