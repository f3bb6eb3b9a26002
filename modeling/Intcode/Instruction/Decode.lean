import Intcode.Instruction.Basic

namespace Intcode.Instruction

/-- The decimal digit of `z` at a place counted from the right. Division is floor division, so that
a negative number has digits as well. -/
def digitAt (z : Int) : Nat → Int
  | 0 => z % 10
  | place + 1 => digitAt (z / 10) place

/-- The operand in slot `i` of the instruction at `pos`. -/
def operandAt (s : Store) (pos : Nat) (i : Nat) : Except Failure Operand := do
  let mode ← Mode.ofWord (Int64.ofInt (digitAt (s.get pos).toInt (i + 2)))
  return { raw := s.get (pos + 1 + i), mode }

def withOpcode (s : Store) (pos : Nat) : Opcode → Except Failure Instruction
  | .binary op => do
    let left ← operandAt s pos 0
    let right ← operandAt s pos 1
    let dest ← operandAt s pos 2
    return .binary op left right dest
  | .input => do
    let dest ← operandAt s pos 0
    return .input dest
  | .output => do
    let source ← operandAt s pos 0
    return .output source
  | .jumpIf on => do
    let test ← operandAt s pos 0
    let dest ← operandAt s pos 1
    return .jumpIf on test dest
  | .adjustBase => do
    let offset ← operandAt s pos 0
    return .adjustBase offset
  | .halt => .ok .halt

/-- The instruction at `pos`. Its opcode is in the two lowest digits of its word. It has to lie
inside the image, and only the mode digits of its own operands are looked at. -/
def decode (s : Store) (pos : Nat) : Except Failure Instruction :=
  Except.mapError (Failure.locate · pos) do
    let word := s.get pos
    let opcode ← Opcode.ofWord (Int64.ofInt (word.toInt % 100))
    if pos + opcode.width ≤ s.size then withOpcode s pos opcode else .error (.truncated word)

end Intcode.Instruction
