import Intcode.Failure

namespace Intcode

/-- The operations that combine two words into a third. -/
inductive BinaryOp
  | add
  | multiply
  | lessThan
  | equals
deriving DecidableEq, Repr

namespace BinaryOp

/-- The result over the integers. A comparison results in one or zero. -/
def exact (op : BinaryOp) (x y : Int) : Int :=
  match op with
  | .add => x + y
  | .multiply => x * y
  | .lessThan => if x < y then 1 else 0
  | .equals => if x = y then 1 else 0

def number : BinaryOp → Nat
  | .add => 1
  | .multiply => 2
  | .lessThan => 7
  | .equals => 8

def mnemonic : BinaryOp → String
  | .add => "ADD"
  | .multiply => "MUL"
  | .lessThan => "LT"
  | .equals => "EQ"

end BinaryOp

/-- What an instruction does. `jumpIf true` jumps on any word but zero, `jumpIf false` on zero. -/
inductive Opcode
  | binary (op : BinaryOp)
  | input
  | output
  | jumpIf (on : Bool)
  | adjustBase
  | halt
deriving DecidableEq, Repr

namespace Opcode

def number : Opcode → Nat
  | .binary op => op.number
  | .input => 3
  | .output => 4
  | .jumpIf true => 5
  | .jumpIf false => 6
  | .adjustBase => 9
  | .halt => 99

def ofNumber? : Int → Option Opcode
  | 1 => some (.binary .add)
  | 2 => some (.binary .multiply)
  | 3 => some .input
  | 4 => some .output
  | 5 => some (.jumpIf true)
  | 6 => some (.jumpIf false)
  | 7 => some (.binary .lessThan)
  | 8 => some (.binary .equals)
  | 9 => some .adjustBase
  | 99 => some .halt
  | _ => none

theorem ofNumber?_number (c : Opcode) : ofNumber? c.number = some c := by
  rcases c with (_ | _ | _ | _) | _ | _ | (_ | _) | _ | _ <;> rfl

def ofWord (w : Word) : Except Failure Opcode :=
  match ofNumber? w.toInt with
  | some c => .ok c
  | none => .error (.unknownOpcode w)

/-- The number of operands. -/
def arity : Opcode → Nat
  | .binary _ => 3
  | .jumpIf _ => 2
  | .input | .output | .adjustBase => 1
  | .halt => 0

/-- The number of cells, the instruction word included. -/
def width (c : Opcode) : Nat := c.arity + 1

def mnemonic : Opcode → String
  | .binary op => op.mnemonic
  | .input => "IN"
  | .output => "OUT"
  | .jumpIf true => "JNZ"
  | .jumpIf false => "JZ"
  | .adjustBase => "ARB"
  | .halt => "HALT"

end Opcode

end Intcode
