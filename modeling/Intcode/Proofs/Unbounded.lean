import Intcode.Proofs.Step
import Mathlib.Algebra.Order.Ring.Int

namespace Intcode

/-- A machine whose cells hold any integer. Its image is bounded, and the counter stays inside. -/
structure Unbounded where
  memory : Nat → Int
  size : Nat
  pos : Nat
  base : Int
  inputs : List Int
  outputs : List Int
  halted : Bool

namespace Unbounded

inductive Act
  | combine (f : Int → Int → Int)
  | input
  | output
  | jump (taken : Int → Bool)
  | adjust
  | halt

namespace Act

def ofCode? : Int → Option Act
  | 1 => some (.combine fun x y ↦ x + y)
  | 2 => some (.combine fun x y ↦ x * y)
  | 3 => some .input
  | 4 => some .output
  | 5 => some (.jump fun x ↦ x ≠ 0)
  | 6 => some (.jump fun x ↦ x = 0)
  | 7 => some (.combine fun x y ↦ if x < y then 1 else 0)
  | 8 => some (.combine fun x y ↦ if x = y then 1 else 0)
  | 9 => some .adjust
  | 99 => some .halt
  | _ => none

def arity : Act → Nat
  | .combine _ => 3
  | .jump _ => 2
  | .input | .output | .adjust => 1
  | .halt => 0

end Act

/-- What an act comes to: a stop, another state and a counter to go on to, or a cell that waits for
an input. -/
inductive Deed
  | halt
  | change (s : Unbounded) (next : Int)
  | request (address : Nat) (next : Int)

variable (s : Unbounded)

def mode (k : Nat) : Int := s.memory s.pos / 10 ^ (k + 2) % 10

def raw (k : Nat) : Int := s.memory (s.pos + 1 + k)

/-- The act at the counter, inside the image with all its operands, and with known modes. -/
def act? : Option Act := do
  let act ← Act.ofCode? (s.memory s.pos % 100)
  if s.pos + act.arity < s.size ∧
      ∀ k < act.arity, s.mode k = 0 ∨ s.mode k = 1 ∨ s.mode k = 2 then return act
  else none

theorem act?_eq_some_iff {s : Unbounded} {act : Act} : s.act? = some act ↔
    Act.ofCode? (s.memory s.pos % 100) = some act ∧ s.pos + act.arity < s.size ∧
      ∀ k < act.arity, s.mode k = 0 ∨ s.mode k = 1 ∨ s.mode k = 2 := by
  unfold act?
  cases Act.ofCode? (s.memory s.pos % 100) with
  | none => simp
  | some act' =>
    simp only [Option.bind_eq_bind, Option.bind_some]
    split
    · rename_i hd
      refine ⟨fun h ↦ ?_, fun h ↦ ?_⟩
      · cases h
        exact ⟨rfl, hd⟩
      · cases h.1
        rfl
    · rename_i hd
      refine ⟨fun h ↦ ?_, fun h ↦ ?_⟩
      · cases h
      · cases h.1
        exact absurd h.2 hd

/-- The address of operand `k`, unless the operand is immediate. -/
def pointer (k : Nat) : Int := if s.mode k = 2 then s.raw k + s.base else s.raw k

def read? (k : Nat) : Option Int :=
  if s.mode k = 1 then some (s.raw k)
  else if 0 ≤ s.pointer k then some (s.memory (s.pointer k).toNat) else none

def target? (k : Nat) : Option Nat :=
  if s.mode k ≠ 1 ∧ 0 ≤ s.pointer k then some (s.pointer k).toNat else none

def write (a : Nat) (z : Int) : Unbounded :=
  { s with memory := fun b ↦ if a = b then z else s.memory b }

def perform? : Act → Option Deed
  | .combine f => do
    let x ← s.read? 0
    let y ← s.read? 1
    let a ← s.target? 2
    return .change (s.write a (f x y)) (s.pos + 4)
  | .input => do
    let a ← s.target? 0
    return .request a (s.pos + 2)
  | .output => do
    let x ← s.read? 0
    return .change { s with outputs := s.outputs ++ [x] } (s.pos + 2)
  | .jump taken => do
    let x ← s.read? 0
    if taken x then
      let y ← s.read? 1
      return .change s y
    else return .change s (s.pos + 3)
  | .adjust => do
    let x ← s.read? 0
    return .change { s with base := s.base + x } (s.pos + 2)
  | .halt => some .halt

def goto? (next : Int) : Option Unbounded :=
  if 0 ≤ next ∧ next < s.size then some { s with pos := next.toNat } else none

def take? (answer : Option Int) : Option (Int × Unbounded) :=
  match s.inputs with
  | v :: vs => some (v, { s with inputs := vs })
  | [] => answer.map fun v ↦ (v, s)

def carry? (answer : Option Int) : Deed → Option Unbounded
  | .halt => some { s with halted := true }
  | .change t next => t.goto? next
  | .request a next => do
    let (v, t) ← s.take? answer
    (t.write a v).goto? next

/-- One step. There is none from a state that the rules do not cover, and none for an instruction
that gets no input. -/
def step? (answer : Option Int) : Option Unbounded :=
  if s.halted then some s
  else do
    let act ← s.act?
    let deed ← s.perform? act
    s.carry? answer deed

theorem step?_of_running (h : s.halted = false) (answer : Option Int) :
    s.step? answer = (s.act? >>= s.perform?) >>= s.carry? answer := by
  rw [step?, h]
  exact (Option.bind_assoc ..).symm

def run? : List (Option Int) → Unbounded → Option Unbounded
  | [], s => some s
  | answer :: answers, s => do
    let t ← s.step? answer
    run? answers t

/-- The numbers that an act works out: the addresses of the operands it uses, and a result or a new
base. -/
def workedOut : Act → List Int
  | .combine f => s.pointer 0 :: s.pointer 1 ::
      (do return f (← s.read? 0) (← s.read? 1) : Option Int).toList ++ [s.pointer 2]
  | .input | .output => [s.pointer 0]
  | .jump taken => s.pointer 0 :: if (s.read? 0).any taken then [s.pointer 1] else []
  | .adjust => s.pointer 0 :: ((s.read? 0).map (s.base + ·)).toList
  | .halt => []

def formed : List Int :=
  if s.halted then []
  else match s.act? with
    | some act => s.workedOut act
    | none => []

end Unbounded

def Processor.unbounded (p : Processor) : Unbounded where
  memory a := (p.store.get a).toInt
  size := p.store.size
  pos := p.pos
  base := p.base.toInt
  inputs := p.inputs.map Int64.toInt
  outputs := p.outputs.map Int64.toInt
  halted := p.status = .halted

theorem Processor.unbounded_of_halted {p : Processor} (h : p.status = .halted) :
    p.unbounded.halted = true := decide_eq_true h

theorem Processor.unbounded_of_running {p : Processor} (h : p.status = .running) :
    p.unbounded.halted = false := by
  simp [unbounded, h]

namespace Machine

variable {π : Type} [Producer π]

/-- What the machine would be given now if it asked for an input. -/
def reply (m : Machine π) : Option Int :=
  match m.takeInput.1 with
  | .ok v => some v.toInt
  | .error _ => none

def replies : Nat → Machine π → List (Option Int)
  | 0, _ => []
  | k + 1, m => m.reply :: replies k m.step.2

end Machine

end Intcode
