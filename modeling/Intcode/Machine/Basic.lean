import Intcode.Console
import Intcode.Processor

namespace Intcode

/-- A source of input that may look at the machine before it answers, and that changes as it is
asked. -/
class Producer (π : Type) where
  answer : π → Processor → Except Failure Word × π

instance : Producer Empty where
  answer s _ := nomatch s

/-- A machine takes its input from the queue. When that is empty it asks its producer, and if it
has none the console. -/
structure Machine (π : Type) extends Processor where
  producer : Option π := none
  console : Console := {}
deriving DecidableEq

namespace Machine

variable {π : Type}

def load (image : List Word) : Machine π := { store := .ofList image }

/-- A machine that halted runs on from `pos`, one that failed stays failed. -/
def moveTo (m : Machine π) (pos : Nat) : Machine π :=
  { m with pos, status := if m.status = .halted then .running else m.status }

def feed (m : Machine π) (ws : List Word) : Machine π := { m with inputs := m.inputs ++ ws }

def attach (m : Machine π) (s : π) : Machine π := { m with producer := some s }

def write (m : Machine π) (address value : Word) : Except Failure Unit × Machine π :=
  match m.store.write address value with
  | .ok store => (.ok (), { m with store })
  | .error e => (.error e, m)

def dump (m : Machine π) : String := m.toProcessor.dump m.producer.isSome

def apply (m : Machine π) (effect : Effect) : Machine π :=
  { m with toProcessor := m.toProcessor.apply effect }

/-- Moves the counter. The answer is `true`, for a machine that runs on. -/
def advance (m : Machine π) (next : Int) : Except Failure Bool × Machine π :=
  match m.toProcessor.advance next with
  | .ok p => (.ok true, { m with toProcessor := p })
  | .error e => (.error e, m)

/-- Whether the next step reads from the console. -/
def asksConsole (m : Machine π) : Bool :=
  match m.status, m.inputs, m.producer, m.plan with
  | .running, [], none, .ok (.request _ _) => true
  | _, _, _, _ => false

variable [Producer π]

def takeInput (m : Machine π) : Except Failure Word × Machine π :=
  match m.inputs, m.producer with
  | v :: inputs, _ => (.ok v, { m with inputs })
  | [], some s =>
    let (answer, s) := Producer.answer s m.toProcessor
    (answer, { m with producer := some s })
  | [], none =>
    let (answer, console) := m.console.ask
    (answer, { m with console })

/-- Carries out the instruction at the counter. -/
def cycle (m : Machine π) : Except Failure Bool × Machine π :=
  match m.plan with
  | .error e => (.error e, m)
  | .ok .halt => (.ok false, { m with status := .halted })
  | .ok (.act effect next) => (m.apply effect).advance next
  | .ok (.request address next) =>
    match m.takeInput with
    | (.error e, m) => (.error (e.locate m.pos), m)
    | (.ok v, m) => (m.apply (.write address v)).advance next

/-- One instruction. The answer tells whether the machine runs on. The first failure is kept, and
every later step answers with it as a fault. -/
def step (m : Machine π) : Except Failure Bool × Machine π :=
  match m.status with
  | .halted => (.ok false, m)
  | .failed cause => (.error cause.asFault, m)
  | .running =>
    match m.cycle with
    | (.ok alive, m) => (.ok alive, m)
    | (.error e, m) => (.error e, { m with status := .failed e })

theorem step_of_halted {m : Machine π} (h : m.status = .halted) : m.step = (.ok false, m) := by
  simp [step, h]

theorem step_of_failed {m : Machine π} {cause : Failure} (h : m.status = .failed cause) :
    m.step = (.error cause.asFault, m) := by
  simp [step, h]

end Machine

end Intcode
