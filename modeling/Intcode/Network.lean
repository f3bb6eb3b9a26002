import Intcode.Machine.Control

namespace Intcode

/-- Machines at one console. -/
structure Network (π : Type) where
  machines : Array (Machine π)
  console : Console := {}

namespace Network

variable {π α : Type}

/-- Lets machine `i` act, with the console lent to it for that time. There is no answer if there is
no such machine, or none from the machine. -/
def actAt? (n : Network π) (i : Nat) (act : Machine π → Option (α × Machine π)) :
    Option (α × Network π) := do
  let m ← n.machines[i]?
  let (answer, m) ← act { m with console := n.console }
  return (answer, { machines := n.machines.setIfInBounds i m, console := m.console })

def feed (n : Network π) (i : Nat) (v : Word) : Network π :=
  { n with machines := n.machines.modify i (·.feed [v]) }

variable [Producer π]

/-- Takes the next output of machine `i` and, if there is one, queues it as input of machine `j`. -/
def pipe? (n : Network π) (fuel i j : Nat) :
    Option (Except Failure (Option Word) × Network π) := do
  let (answer, n) ← n.actAt? i (Machine.nextOutput? fuel)
  match answer with
  | .ok (some v) => return (.ok (some v), n.feed j v)
  | answer => return (answer, n)

end Network

end Intcode
