import Intcode.Proofs.Hazards

namespace Intcode

theorem Failure.locate_of_address {e : Failure} {a : Nat} (h : e.address = some a) (pos : Nat) :
    e.locate pos = e := by
  rw [locate, h, Option.getD_some, ← h]

namespace Processor

variable (p : Processor)

/-- The state that an instruction leaves once it is complete, its move of the counter apart. An
input instruction stores `v`, and takes it from the queue if anything is queued. -/
def completed (i : Instruction) (v : Word) : Processor :=
  match i with
  | .binary op left right dest =>
    let x := left.content p.store p.base
    let y := right.content p.store p.base
    { p with
      store := p.store.set (dest.place p.base).toNat (Int64.ofInt (op.exact x.toInt y.toInt)) }
  | .input dest =>
    { p with store := p.store.set (dest.place p.base).toNat v, inputs := p.inputs.tail }
  | .output source => { p with outputs := p.outputs ++ [source.content p.store p.base] }
  | .adjustBase offset =>
    { p with base := Int64.ofInt (p.base.toInt + (offset.content p.store p.base).toInt) }
  | .jumpIf _ _ _ | .halt => p

/-- The instruction is a jump that is taken. -/
def Jumps (i : Instruction) : Prop :=
  ∃ on test dest, i = .jumpIf on test dest ∧ (test.content p.store p.base != 0) = on

variable {p} {i : Instruction}

theorem completed_frame (v : Word) : (p.completed i v).store.size = p.store.size ∧
    (p.completed i v).pos = p.pos ∧ (p.completed i v).status = p.status := by
  cases i with
  | binary | input => exact ⟨Store.size_set _ _ _, rfl, rfl⟩
  | output | jumpIf | adjustBase | halt => exact ⟨rfl, rfl, rfl⟩

theorem completed_of_jumps (h : p.Jumps i) (v : Word) : p.completed i v = p := by
  obtain ⟨on, test, dest, rfl, -⟩ := h
  rfl

theorem successor_of_not_jumps (h : ¬p.Jumps i) : p.successor i = (p.pos + i.width : Nat) := by
  cases i with
  | jumpIf on test dest =>
    rw [successor, if_neg fun ht ↦ h ⟨on, test, dest, rfl, ht⟩]
    rfl
  | binary | input | output | adjustBase | halt => rfl

end Processor

namespace Machine

variable {π : Type}

def fail (m : Machine π) (e : Failure) : Except Failure Bool × Machine π :=
  (.error e, { m with status := .failed e })

variable [Producer π]

/-- The word that an instruction reads, and the machine once it has been asked for. Only an input
instruction reads one, and the others are given a zero that they do not look at. -/
def wordFor (m : Machine π) : Instruction → Except Failure Word × Machine π
  | .input _ => m.takeInput
  | _ => (.ok 0, m)

/-- What a machine that runs does with an instruction: nothing if there is a hazard, and else it
makes its change and moves on. -/
def carryOut (m : Machine π) (i : Instruction) : Except Failure Bool × Machine π :=
  match (m.hazardsOf i).findSome? id, m.wordFor i with
  | some e, _ => m.fail (e.locate m.pos)
  | none, (.error e, n) => n.fail (e.locate m.pos)
  | none, (.ok v, n) =>
    if i = .halt then (.ok false, { m with status := .halted })
    else { n with toProcessor := m.completed i v }.arrive (m.successor i)

section
variable {m n : Machine π} {i : Instruction} {e : Failure} {v : Word}

theorem wordFor_of_error (ht : m.wordFor i = (.error e, n)) : n.toProcessor = m.toProcessor := by
  cases i with
  | input dest =>
    have hproc := m.takeInput_toProcessor
    cases hi : m.inputs with
    | cons w ws => rw [wordFor, takeInput_of_queued hi] at ht; cases ht
    | nil =>
      rw [wordFor] at ht
      rw [ht, hi, List.tail_nil, ← hi] at hproc
      exact hproc
  | binary | output | jumpIf | adjustBase | halt => cases ht

theorem carryOut_of_hazard (he : (m.hazardsOf i).findSome? id = some e) :
    m.carryOut i = m.fail (e.locate m.pos) := by
  rw [carryOut, he]

theorem carryOut_of_refused (hn : (m.hazardsOf i).findSome? id = none)
    (ht : m.wordFor i = (.error e, n)) : m.carryOut i = n.fail (e.locate m.pos) := by
  rw [carryOut, hn, ht]

theorem carryOut_halt : m.carryOut .halt = (.ok false, { m with status := .halted }) := rfl

theorem carryOut_of_ne_halt (hn : (m.hazardsOf i).findSome? id = none)
    (ht : m.wordFor i = (.ok v, n)) (hi : i ≠ .halt) :
    m.carryOut i = { n with toProcessor := m.completed i v }.arrive (m.successor i) := by
  rw [carryOut, hn, ht]
  exact if_neg hi

/-- An instruction fails before it has changed anything, halts, or is complete and moves on. -/
theorem carryOut_cases (m : Machine π) (i : Instruction) :
    (∃ e, ∃ n : Machine π, n.toProcessor = m.toProcessor ∧ m.carryOut i = n.fail e) ∨
    i = .halt ∧ m.carryOut i = (.ok false, { m with status := .halted }) ∨
    ∃ v n, m.wordFor i = (.ok v, n) ∧
      m.carryOut i = { n with toProcessor := m.completed i v }.arrive (m.successor i) := by
  by_cases hi : i = .halt
  · subst hi
    exact .inr (.inl ⟨rfl, carryOut_halt⟩)
  · cases hh : (m.hazardsOf i).findSome? id with
    | some e => exact .inl ⟨_, m, rfl, carryOut_of_hazard hh⟩
    | none =>
      rcases ht : m.wordFor i with ⟨e | v, n⟩
      · exact .inl ⟨_, n, wordFor_of_error ht, carryOut_of_refused hh ht⟩
      · exact .inr (.inr ⟨v, n, rfl, carryOut_of_ne_halt hh ht hi⟩)

/-- A step carries out the instruction at the counter, if there is one. -/
theorem step_of_decode (h : m.status = .running)
    (hd : Instruction.decode m.store m.pos = .ok i) : m.step = m.carryOut i := by
  have hp := plan_of_decode hd
  cases hh : (m.hazardsOf i).findSome? id with
  | some e =>
    rw [guarded_of_some hh] at hp
    rw [carryOut_of_hazard hh]
    exact step_eq_iff.mpr (.stuck h hp)
  | none =>
    rw [guarded_of_none hh] at hp
    cases i with
    | halt => exact step_eq_iff.mpr (.halt h hp)
    | binary | output | jumpIf | adjustBase =>
      rw [carryOut_of_ne_halt hh rfl nofun]
      exact step_of_acts h (.act hp)
    | input dest =>
      have hproc := m.takeInput_toProcessor
      rcases ht : m.takeInput with ⟨e | v, n⟩
      · rw [carryOut_of_refused hh ht, ← (takeInput_frame ht).2]
        exact step_eq_iff.mpr (.refused h hp ht)
      · rw [ht] at hproc
        rw [carryOut_of_ne_halt hh ht nofun, step_of_acts h (.read hp ht), apply, hproc]
        rfl

/-- A machine with no instruction at its counter fails, and does nothing else. -/
theorem step_of_not_decode (h : m.status = .running) (hpos : m.pos < m.store.size)
    (hd : Instruction.decode m.store m.pos = .error e) : m.step = m.fail e := by
  have hp : m.plan = .error e := by
    rw [Processor.plan, if_pos hpos, hd]
    have he := (Instruction.decode_fails m.store m.pos e hd).2
    exact congrArg Except.error (Failure.locate_of_address he m.pos)
  exact step_eq_iff.mpr (.stuck h hp)

theorem step_eq_fail_or_carryOut (h : m.status = .running) : (∃ e, m.step = m.fail e) ∨
    ∃ i, Instruction.decode m.store m.pos = .ok i ∧ m.step = m.carryOut i := by
  cases hp : m.plan with
  | error e => exact .inl ⟨e, step_eq_iff.mpr (.stuck h hp)⟩
  | ok plan =>
    obtain ⟨i, hd, -⟩ := Processor.plan_eq_ok_iff.mp hp
    exact .inr ⟨i, hd, step_of_decode h hd⟩

end

end Machine

end Intcode
