import Intcode.Instruction.Decode

namespace Intcode

/-- A part of a disassembled image: an instruction, or a cell where none begins. -/
inductive Line
  | code (address : Nat) (instruction : Instruction)
  | data (address : Nat) (word : Word)
deriving DecidableEq, Repr

namespace Line

/-- The line for what begins at `pos`. -/
def ofStore (s : Store) (pos : Nat) : Line :=
  match Instruction.decode s pos with
  | .ok i => .code pos i
  | .error _ => .data pos (s.get pos)

def address : Line → Nat
  | .code a _ | .data a _ => a

/-- The number of cells that the line stands for. -/
def size : Line → Nat
  | .code _ i => i.width
  | .data _ _ => 1

theorem size_pos (l : Line) : 0 < l.size := by
  cases l with
  | code _ i => exact i.width_pos
  | data _ _ => exact Nat.one_pos

/-- The cells that the line stands for, in order. -/
def cells : Line → List Word
  | .code _ i => i.cells
  | .data _ w => [w]

def body : Line → String
  | .code _ i => i.text
  | .data _ w => "DATA " ++ w.text

def text (column : Nat) (l : Line) : String :=
  Text.alignRight column (Numeral.text l.address) ++ ": " ++ l.body ++ "\n"

end Line

/-- The image from `pos` on, each line beginning where the one before it ends. -/
def linesFrom (s : Store) (pos : Nat) : List Line :=
  if pos < s.size then
    let l := Line.ofStore s pos
    l :: linesFrom s (pos + l.size)
  else []
termination_by s.size - pos
decreasing_by
  have := (Line.ofStore s pos).size_pos
  omega

def disassemble (s : Store) : List Line := linesFrom s 0

/-- A listing. The column of addresses is as wide as the last of them. -/
def listingText (ls : List Line) : String :=
  let column := (ls.getLast?.map fun l ↦ (Numeral.text l.address).length).getD 1
  String.join (ls.map (Line.text column))

end Intcode
