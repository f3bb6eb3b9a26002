import Intcode.Machine.Basic

namespace Intcode

/-- How a run of limited length ended. -/
inductive Pause
  | running
  | output (value : Word)
  | halted
deriving DecidableEq, Repr

/-- What ends a call without an answer of any kind. -/
inductive Breakdown
  | capacityOverflow
deriving DecidableEq, Repr

namespace Machine

variable {π : Type}

/-- What a machine answers without a step: its fault if it failed, else its oldest output. -/
def pending? (m : Machine π) : Option (Except Failure Word × Machine π) :=
  match m.status, m.outputs with
  | .failed cause, _ => some (.error cause.asFault, m)
  | _, v :: outputs => some (.ok v, { m with outputs })
  | _, [] => none

theorem pending?_eq_none_iff {m : Machine π} :
    m.pending? = none ↔ (∀ e, m.status ≠ .failed e) ∧ m.outputs = [] := by
  unfold pending?
  split <;> simp_all

theorem pending?_of_failed {m : Machine π} {cause : Failure} (h : m.status = .failed cause) :
    m.pending? = some (.error cause.asFault, m) := by
  simp only [pending?, h]

theorem pending?_of_cons {m : Machine π} {v : Word} {vs : List Word}
    (h : ∀ e, m.status ≠ .failed e) (ho : m.outputs = v :: vs) :
    m.pending? = some (.ok v, { m with outputs := vs }) := by
  unfold pending?
  split <;> simp_all

theorem failed_of_pending? {m m' : Machine π} {e : Failure}
    (h : m.pending? = some (.error e, m')) :
    m' = m ∧ ∃ cause, m.status = .failed cause ∧ e = cause.asFault := by
  unfold pending? at h
  split at h
  · rename_i hs
    cases h
    exact ⟨rfl, _, hs, rfl⟩
  · cases h
  · cases h

variable [Producer π]

/-- Steps until the machine halts, and shows the outputs without taking them. There is no answer
if that takes more than `fuel` steps. -/
def run? : Nat → Machine π → Option (Except Failure (List Word) × Machine π)
  | 0, _ => none
  | fuel + 1, m =>
    match m.step with
    | (.error e, m) => some (.error e, m)
    | (.ok false, m) => some (.ok m.outputs, m)
    | (.ok true, m) => run? fuel m

/-- Steps until there is an output and takes it, `none` if the machine halts before that. There is
no answer if that takes more than `fuel` steps. -/
def nextOutput? (fuel : Nat) (m : Machine π) :
    Option (Except Failure (Option Word) × Machine π) :=
  match m.pending? with
  | some (answer, m) => some (answer.map some, m)
  | none =>
    match fuel with
    | 0 => none
    | fuel + 1 =>
      match m.step with
      | (.error e, m) => some (.error e, m)
      | (.ok false, m) => some (.ok none, m)
      | (.ok true, m) => nextOutput? fuel m

/-- Takes `count` outputs one after the other. A batch that the machine does not fill is dropped. -/
def gather? (fuel : Nat) :
    Nat → Machine π → Option (Except Failure (Option (List Word)) × Machine π)
  | 0, m => some (.ok (some []), m)
  | count + 1, m =>
    match m.nextOutput? fuel with
    | none => none
    | some (.error e, m) => some (.error e, m)
    | some (.ok none, m) => some (.ok none, m)
    | some (.ok (some v), m) =>
      (gather? fuel count m).map fun (answer, m) ↦ (answer.map (·.map (v :: ·)), m)

/-- The most outputs that a batch can have room for, with 8 bytes for each of them and no more than
`2 ^ 63 - 1` bytes in all. Up to this limit the memory is taken to be there. -/
def batchRoom : Nat := 9223372036854775807 / 8

/-- Gathers `count` outputs. The call breaks down before the first step if there cannot be room for
so many. -/
def nextOutputs? (fuel count : Nat) (m : Machine π) :
    Except Breakdown (Option (Except Failure (Option (List Word)) × Machine π)) :=
  if count ≤ batchRoom then .ok (m.gather? fuel count) else .error .capacityOverflow

/-- Steps until there is an output and takes it, but no more than `budget` times. -/
def execute (budget : Nat) (m : Machine π) : Except Failure Pause × Machine π :=
  match m.pending? with
  | some (answer, m) => (answer.map .output, m)
  | none =>
    match budget with
    | 0 => (.ok (if m.status = .halted then .halted else .running), m)
    | budget + 1 =>
      match m.step with
      | (.error e, m) => (.error e, m)
      | (.ok false, m) => (.ok .halted, m)
      | (.ok true, m) => execute budget m

theorem nextOutputs?_of_le {count : Nat} (h : count ≤ batchRoom) (fuel : Nat) (m : Machine π) :
    m.nextOutputs? fuel count = .ok (m.gather? fuel count) := if_pos h

theorem nextOutputs?_of_lt {count : Nat} (h : batchRoom < count) (fuel : Nat) (m : Machine π) :
    m.nextOutputs? fuel count = .error .capacityOverflow := if_neg (Nat.not_le.mpr h)

theorem nextOutputs?_eq_error_iff {fuel count : Nat} {m : Machine π} :
    m.nextOutputs? fuel count = .error .capacityOverflow ↔ batchRoom < count := by
  refine ⟨fun h ↦ Nat.lt_of_not_le fun hc ↦ ?_, fun hc ↦ nextOutputs?_of_lt hc fuel m⟩
  rw [nextOutputs?_of_le hc] at h
  cases h

section
variable {m m' : Machine π} {e : Failure} {answer : Except Failure Word}

theorem nextOutput?_of_pending (hp : m.pending? = some (answer, m')) (fuel : Nat) :
    m.nextOutput? fuel = some (answer.map some, m') := by
  unfold nextOutput?
  rw [hp]

theorem execute_of_pending (hp : m.pending? = some (answer, m')) (budget : Nat) :
    m.execute budget = (answer.map .output, m') := by
  unfold execute
  rw [hp]

variable (hp : m.pending? = none)
include hp

theorem nextOutput?_zero : m.nextOutput? 0 = none := by
  unfold nextOutput?
  rw [hp]

theorem nextOutput?_of_error (hs : m.step = (.error e, m')) (fuel : Nat) :
    m.nextOutput? (fuel + 1) = some (.error e, m') := by
  unfold nextOutput?
  simp only [hp, hs]

theorem nextOutput?_of_halt (hs : m.step = (.ok false, m')) (fuel : Nat) :
    m.nextOutput? (fuel + 1) = some (.ok none, m') := by
  unfold nextOutput?
  simp only [hp, hs]

theorem nextOutput?_of_alive (hs : m.step = (.ok true, m')) (fuel : Nat) :
    m.nextOutput? (fuel + 1) = m'.nextOutput? fuel := by
  rw [nextOutput?.eq_def]
  simp only [hp, hs]

theorem execute_zero :
    m.execute 0 = (.ok (if m.status = .halted then .halted else .running), m) := by
  unfold execute
  rw [hp]

theorem execute_of_error (hs : m.step = (.error e, m')) (budget : Nat) :
    m.execute (budget + 1) = (.error e, m') := by
  unfold execute
  simp only [hp, hs]

theorem execute_of_halt (hs : m.step = (.ok false, m')) (budget : Nat) :
    m.execute (budget + 1) = (.ok .halted, m') := by
  unfold execute
  simp only [hp, hs]

theorem execute_of_alive (hs : m.step = (.ok true, m')) (budget : Nat) :
    m.execute (budget + 1) = m'.execute budget := by
  rw [execute.eq_def]
  simp only [hp, hs]

end

theorem run?_of_error {m m' : Machine π} {e : Failure} (hs : m.step = (.error e, m'))
    (fuel : Nat) : m.run? (fuel + 1) = some (.error e, m') := by
  rw [run?, hs]

theorem run?_of_halt {m m' : Machine π} (hs : m.step = (.ok false, m')) (fuel : Nat) :
    m.run? (fuel + 1) = some (.ok m'.outputs, m') := by
  rw [run?, hs]

theorem run?_of_alive {m m' : Machine π} (hs : m.step = (.ok true, m')) (fuel : Nat) :
    m.run? (fuel + 1) = m'.run? fuel := by
  rw [run?, hs]

end Machine

end Intcode
