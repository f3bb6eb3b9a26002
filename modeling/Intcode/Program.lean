import Intcode.Failure
import Intcode.Text.Blank

namespace Intcode.Program

def readCell (index : Nat) (piece : List Char) : Except Failure Word :=
  match Numeral.read (Text.trim piece) with
  | .ok w => .ok w
  | .error .empty => .error (.emptyCell index)
  | .error _ => .error (.badCell index)

def readCells (index : Nat) : List (List Char) → Except Failure (List Word)
  | [] => .ok []
  | piece :: pieces => do
    let w ← readCell index piece
    let ws ← readCells (index + 1) pieces
    return w :: ws

/-- The words of a program text: numerals with commas between them, and blanks around each. A blank
text is the empty program. -/
def parse (text : String) : Except Failure (List Word) :=
  if text.toList.all Text.isBlank then .ok [] else readCells 0 (text.toList.splitOn ',')

end Intcode.Program
