import Intcode.Instruction.Decode

namespace Intcode

inductive Status
  | running
  | halted
  | failed (cause : Failure)
deriving DecidableEq, Repr

def Status.text : Status → String
  | .running => "Running"
  | .halted => "Halted"
  | .failed cause => "Failed(" ++ cause.dump ++ ")"

/-- The state of a machine but for where its input comes from once the queue is empty. -/
structure Processor where
  store : Store := {}
  pos : Nat := 0
  base : Word := 0
  inputs : List Word := []
  outputs : List Word := []
  status : Status := .running
deriving DecidableEq

/-- A change that an instruction makes, its move of the counter apart. -/
inductive Effect
  | none
  | write (address : Nat) (value : Word)
  | emit (value : Word)
  | rebase (base : Word)
deriving DecidableEq, Repr

/-- What an instruction is about to do: stop, or make a change and move the counter, or do so once
a word of input is there to be written. -/
inductive Plan
  | halt
  | act (effect : Effect) (next : Int)
  | request (address : Nat) (next : Int)
deriving DecidableEq, Repr

/-- The word for an exact result. -/
def Word.exact (z : Int) : Except Failure Word :=
  match Word.ofInt? z with
  | some w => .ok w
  | none => .error .overflow

namespace Processor

/-- What the instruction does when it stands at the counter. The operands are read in order, then
the result is formed, and the target is looked up last. -/
def planFor (p : Processor) (i : Instruction) : Except Failure Plan :=
  let next := p.pos + i.width
  match i with
  | .binary op left right dest => do
    let x ← left.value p.store p.base
    let y ← right.value p.store p.base
    let z ← Word.exact (op.exact x.toInt y.toInt)
    let address ← dest.target p.base
    return .act (.write address z) next
  | .input dest => do
    let address ← dest.target p.base
    return .request address next
  | .output source => do
    let x ← source.value p.store p.base
    return .act (.emit x) next
  | .jumpIf on test dest => do
    let x ← test.value p.store p.base
    if (x != 0) = on then
      let y ← dest.value p.store p.base
      return .act .none y.toInt
    else return .act .none next
  | .adjustBase offset => do
    let x ← offset.value p.store p.base
    let base ← Word.exact (p.base.toInt + x.toInt)
    return .act (.rebase base) next
  | .halt => .ok .halt

/-- What the instruction at the counter does. The state is not changed yet, so that an operand, a
result or a target that fails leaves nothing half done. -/
def plan (p : Processor) : Except Failure Plan :=
  Except.mapError (Failure.locate · p.pos) do
    if p.pos < p.store.size then
      let i ← Instruction.decode p.store p.pos
      p.planFor i
    else .error (.outOfBounds p.pos)

def apply (p : Processor) : Effect → Processor
  | .none => p
  | .write a v => { p with store := p.store.set a v }
  | .emit v => { p with outputs := p.outputs ++ [v] }
  | .rebase b => { p with base := b }

/-- Moves the counter to `next`, which has to lie inside the image. -/
def advance (p : Processor) (next : Int) : Except Failure Processor :=
  if 0 ≤ next ∧ next < p.store.size then .ok { p with pos := next.toNat }
  else .error ((Failure.outOfBounds next).locate p.pos)

/-- The state in one line. -/
def dump (p : Processor) (hasProducer : Bool) : String :=
  "Runtime \x7b pos: " ++ Numeral.text p.pos ++ ", base: " ++ p.base.text ++
    ", state: " ++ p.status.text ++ ", inputs: " ++ Word.listText p.inputs ++
    ", outputs: " ++ Word.listText p.outputs ++
    ", input_fn: " ++ (if hasProducer then "true" else "false") ++
    ", memory: " ++ p.store.dump ++ " \x7d"

end Processor

end Intcode
