import Intcode.Instruction.Opcode
import Intcode.Instruction.Operand

namespace Intcode

inductive Instruction
  | binary (op : BinaryOp) (left right dest : Operand)
  | input (dest : Operand)
  | output (source : Operand)
  | jumpIf (on : Bool) (test dest : Operand)
  | adjustBase (offset : Operand)
  | halt
deriving DecidableEq, Repr

namespace Instruction

def opcode : Instruction → Opcode
  | .binary op _ _ _ => .binary op
  | .input _ => .input
  | .output _ => .output
  | .jumpIf on _ _ => .jumpIf on
  | .adjustBase _ => .adjustBase
  | .halt => .halt

def operands : Instruction → List Operand
  | .binary _ left right dest => [left, right, dest]
  | .input dest => [dest]
  | .output source => [source]
  | .jumpIf _ test dest => [test, dest]
  | .adjustBase offset => [offset]
  | .halt => []

def width (i : Instruction) : Nat := i.opcode.width

theorem length_operands (i : Instruction) : i.operands.length = i.opcode.arity := by
  cases i <;> rfl

theorem width_pos (i : Instruction) : 0 < i.width := Nat.succ_pos _

/-- The mode digits as one number, that of the first operand lowest. -/
def modeDigits : List Operand → Nat
  | [] => 0
  | o :: os => o.mode.digit + 10 * modeDigits os

/-- The instruction word: the opcode in the two lowest digits, and above it the mode digits. -/
def word (i : Instruction) : Word :=
  Int64.ofNat (i.opcode.number + 100 * modeDigits i.operands)

/-- The cells of the instruction, its word first. -/
def cells (i : Instruction) : List Word := i.word :: i.operands.map Operand.raw

def text (i : Instruction) : String :=
  if i.operands = [] then i.opcode.mnemonic
  else i.opcode.mnemonic ++ " " ++ Text.commaSeparated (i.operands.map Operand.text)

end Instruction

end Intcode
