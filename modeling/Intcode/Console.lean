import Intcode.Failure
import Intcode.Text.Blank

namespace Intcode

/-- The terminal at which a program is run: the bytes typed and not read yet, and what has been
printed. -/
structure Console where
  unread : List UInt8 := []
  printed : String := ""
deriving DecidableEq

namespace Console

def print (c : Console) (s : String) : Console := { c with printed := c.printed ++ s }

/-- The next line, without the newline byte that ends it, and the console after it. There is none
once all bytes have been read. -/
def readLine? (c : Console) : Option (List UInt8 × Console) :=
  match c.unread with
  | [] => none
  | bytes =>
    let line := bytes.takeWhile (· ≠ 10)
    some (line, { c with unread := bytes.drop (line.length + 1) })

/-- Prompts for a word and reads one line. A line that is no text counts as the end of input.
Standard output is taken to be writable, so that there is no failure to prompt. -/
def ask (c : Console) : Except Failure Word × Console :=
  let c := c.print "?? "
  match c.readLine? with
  | none => (.error .endOfInput, c)
  | some (line, c) =>
    match String.fromUTF8? line.toByteArray with
    | none => (.error .endOfInput, c)
    | some text =>
      match Numeral.read (Text.trim text.toList) with
      | .ok w => (.ok w, c)
      | .error _ => (.error .badInput, c)

end Console

end Intcode
