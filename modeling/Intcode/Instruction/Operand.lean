import Intcode.Store

namespace Intcode

/-- How an operand is meant: as the address of a cell, as the value itself, or as the address of a
cell counted from the base. -/
inductive Mode
  | position
  | immediate
  | relative
deriving DecidableEq, Repr

namespace Mode

def digit : Mode → Nat
  | .position => 0
  | .immediate => 1
  | .relative => 2

def ofDigit? : Int → Option Mode
  | 0 => some .position
  | 1 => some .immediate
  | 2 => some .relative
  | _ => none

theorem ofDigit?_digit (m : Mode) : ofDigit? m.digit = some m := by cases m <;> rfl

def ofWord (w : Word) : Except Failure Mode :=
  match ofDigit? w.toInt with
  | some m => .ok m
  | none => .error (.unknownMode w)

end Mode

structure Operand where
  raw : Word
  mode : Mode
deriving DecidableEq, Repr

namespace Operand

/-- The word that points to the operand's cell. -/
def pointer (o : Operand) (base : Word) : Except Failure Word :=
  match o.mode with
  | .position => .ok o.raw
  | .immediate => .error (.immediateTarget o.raw)
  | .relative =>
    match Word.ofInt? (o.raw.toInt + base.toInt) with
    | some w => .ok w
    | none => .error (.addressOverflow o.raw)

def value (o : Operand) (s : Store) (base : Word) : Except Failure Word :=
  if o.mode = .immediate then .ok o.raw else o.pointer base >>= s.read

/-- The address of the cell that is written to. -/
def target (o : Operand) (base : Word) : Except Failure Nat :=
  o.pointer base >>= Store.address

def text (o : Operand) : String :=
  match o.mode with
  | .position => "[" ++ o.raw.text ++ "]"
  | .immediate => "#" ++ o.raw.text
  | .relative => (if o.raw < 0 then "[base" else "[base+") ++ o.raw.text ++ "]"

end Operand

end Intcode
