import Intcode.Machine.Basic

namespace Intcode

/-- A producer described by data. -/
inductive Script
  | answers (values : List Word)
  | cell (address : Word)
  | compare (left right : Word)
  | position
  | base
  | dumpLength
  | refuse (failure : Failure)
deriving DecidableEq, Repr

namespace Script

/-- The sign of the difference, which wraps around. -/
def signOfDifference (x y : Word) : Word :=
  if x - y < 0 then -1 else if x - y = 0 then 0 else 1

def answer : Script → Processor → Except Failure Word × Script
  | .answers [], _ => (.error { kind := .input, note := "PRODUCER EMPTY" }, .answers [])
  | .answers (v :: values), _ => (.ok v, .answers values)
  | .cell a, p => (p.store.read a, .cell a)
  | .compare a b, p =>
    let sign := do
      let x ← p.store.read a
      let y ← p.store.read b
      return signOfDifference x y
    (sign, .compare a b)
  | .position, p => (.ok (Int64.ofNat p.pos), .position)
  | .base, p => (.ok p.base, .base)
  | .dumpLength, p => (.ok (Int64.ofNat (p.dump false).utf8ByteSize), .dumpLength)
  | .refuse failure, _ => (.error failure, .refuse failure)

instance : Producer Script where
  answer := answer

end Script

end Intcode
