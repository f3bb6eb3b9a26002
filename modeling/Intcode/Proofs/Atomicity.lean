import Intcode.Proofs.Execution
import Intcode.Proofs.Supply

namespace Intcode.Machine

variable {π : Type} [Producer π]

/-- The instruction in the last cells of the image is complete, and as it does not jump there is no
cell to go on to. -/
structure RunsOff (m : Machine π) (i : Instruction) (e : Failure) (n : Machine π) : Prop where
  decoded : Instruction.decode m.store m.pos = .ok i
  straight : ¬m.Jumps i
  last : m.pos + i.width = m.store.size
  failure : e =
    { kind := .counter, value := some (Int64.ofInt m.store.size), address := some m.pos }
  state : ∃ v, (m.wordFor i).1 = .ok v ∧
    n.toProcessor = { m.completed i v with status := .failed e }

section
variable {m n : Machine π} {i : Instruction} {e : Failure} {v : Word}

theorem runsOff_of_leaves (hd : Instruction.decode m.store m.pos = .ok i) (hj : ¬m.Jumps i)
    (hn : ¬(0 ≤ m.successor i ∧ m.successor i < m.store.size)) (hw : (m.wordFor i).1 = .ok v)
    (he : e = (Failure.outOfBounds (m.successor i)).locate m.pos)
    (hproc : n.toProcessor = { m.completed i v with status := .failed e }) : m.RunsOff i e n := by
  have hnext := Processor.successor_of_not_jumps hj
  have hle := (Instruction.decode_eq_ok_iff.mp hd).2.1
  have hlast : m.pos + i.width = m.store.size := by omega
  rw [hnext, hlast] at he
  exact ⟨hd, hj, hlast, he, v, hw, hproc⟩

/-- A step that fails changes nothing, or else it comes to the end of the image with its instruction
complete. -/
theorem unchanged_or_runsOff (h : m.status = .running) (hs : m.step = (.error e, n)) :
    n.toProcessor = { m.toProcessor with status := .failed e } ∨ ∃ i, m.RunsOff i e n := by
  rcases step_eq_fail_or_carryOut h with ⟨f, hf⟩ | ⟨i, hd, hi⟩
  · cases hs.symm.trans hf
    exact .inl rfl
  · rcases m.carryOut_cases i with ⟨f, m', hm, hc⟩ | ⟨-, hc⟩ | ⟨v, m', ht, hc⟩
    · cases hs.symm.trans (hi.trans hc)
      left
      rw [hm]
    · cases hs.symm.trans (hi.trans hc)
    · obtain ⟨hsize, hpos, -⟩ := Processor.completed_frame (p := m.toProcessor) (i := i) v
      rw [hi, hc, arrive, hsize] at hs
      split at hs
      · cases hs
      · rename_i hn
        cases hs
        -- a jump has nothing to complete, so that it fails with nothing changed
        by_cases hj : m.Jumps i
        · left
          rw [Processor.completed_of_jumps hj]
        · have he := congrArg (Failure.outOfBounds (m.successor i)).locate hpos
          exact .inr ⟨i, runsOff_of_leaves hd hj hn (by rw [ht]) he rfl⟩

theorem pos_of_failed (h : m.status = .running) (hs : m.step = (.error e, n)) : n.pos = m.pos := by
  rcases unchanged_or_runsOff h hs with hn | ⟨i, hr⟩
  · rw [hn]
  · obtain ⟨v, -, hn⟩ := hr.state
    rw [hn]
    exact (Processor.completed_frame v).2.1

/-- An instruction after which the machine runs on is complete. -/
theorem completed_of_alive (h : m.status = .running) (hs : m.step = (.ok true, n)) :
    ∃ i v, Instruction.decode m.store m.pos = .ok i ∧ (m.wordFor i).1 = .ok v ∧
      n.toProcessor = { m.completed i v with pos := n.pos } := by
  rcases step_eq_fail_or_carryOut h with ⟨f, hf⟩ | ⟨i, hd, hi⟩
  · cases hs.symm.trans hf
  · rcases m.carryOut_cases i with ⟨f, m', hm, hc⟩ | ⟨-, hc⟩ | ⟨v, m', ht, hc⟩
    · cases hs.symm.trans (hi.trans hc)
    · cases hs.symm.trans (hi.trans hc)
    · rw [hi, hc, arrive] at hs
      split at hs
      · cases hs
        exact ⟨i, v, hd, by rw [ht], rfl⟩
      · cases hs

/-- An input instruction looks for its target before it asks for a word. -/
theorem step_of_unwritable {dest : Operand} (h : m.status = .running)
    (hd : Instruction.decode m.store m.pos = .ok (.input dest))
    (ht : dest.mode = .immediate ∨ dest.Misplaced m.base) :
    ∃ e, m.step = (.error e, { m with status := .failed e }) := by
  have hk := (dest.target_fails m.base).2
  cases hw : dest.unwritable? m.base with
  | none =>
    rw [hw] at hk
    split at hk
    · cases hk
    · rename_i hm
      rw [if_pos (ht.resolve_left hm)] at hk
      cases hk
  | some e =>
    have hh : (m.hazardsOf (.input dest)).findSome? id = some e := by
      rw [Processor.hazardsOf, hw]
      rfl
    exact ⟨_, (step_of_decode h hd).trans (carryOut_of_hazard hh)⟩

/-- A word that a failing step takes from the queue is in its cell. -/
theorem inputs_of_failed (h : m.status = .running) (hs : m.step = (.error e, n)) :
    n.inputs = m.inputs ∨ ∃ dest a v, Instruction.decode m.store m.pos = .ok (.input dest) ∧
      dest.target m.base = .ok a ∧ m.inputs = v :: n.inputs ∧ m.store.Stored a v n.store := by
  cases step_eq_iff.mp hs with
  | fault hf => cases h.symm.trans hf
  | stuck => exact .inl rfl
  | refused _ hp ht =>
    -- a queued word is never refused
    left
    cases hi : m.inputs with
    | cons v vs => rw [takeInput_of_queued hi] at ht; cases ht
    | nil =>
      have hproc := congrArg Processor.inputs m.takeInput_toProcessor
      rw [ht, hi] at hproc
      exact hproc
  | leave _ ha hn =>
    cases ha with
    | @act effect _ hp => cases effect <;> exact .inl rfl
    | @read m' address v next hp ht =>
      have hproc := m.takeInput_toProcessor
      cases hi : m.inputs with
      | nil =>
        left
        rw [ht, hi] at hproc
        exact congrArg Processor.inputs hproc
      | cons w ws =>
        right
        rw [takeInput_of_queued hi] at ht
        cases ht
        obtain ⟨i, hd, hf⟩ := Processor.plan_eq_ok_iff.mp hp
        cases Processor.planFor_eq_ok_iff.mp hf with
        | @request dest _ ha => exact ⟨dest, address, _, hd, ha, rfl, m.store.stored_set address _⟩

/-- A failing step is all or nothing. It changes nothing but that the machine has failed, or its
instruction is complete and ends with the image. So no input is lost, and none is asked for if there
is no cell for it. -/
theorem step_all_or_nothing (h : m.status = .running) :
    (∀ e n, m.step = (.error e, n) →
      (n.toProcessor = { m.toProcessor with status := .failed e } ∨ ∃ i, m.RunsOff i e n) ∧
      n.pos = m.pos ∧
      (m.starved ∨ n.producer = m.producer ∧ n.console = m.console) ∧
      (n.inputs = m.inputs ∨ ∃ dest a v, Instruction.decode m.store m.pos = .ok (.input dest) ∧
        dest.target m.base = .ok a ∧ m.inputs = v :: n.inputs ∧ m.store.Stored a v n.store)) ∧
    (∀ n, m.step = (.ok true, n) → ∃ i v, Instruction.decode m.store m.pos = .ok i ∧
      (m.wordFor i).1 = .ok v ∧ n.toProcessor = { m.completed i v with pos := n.pos }) ∧
    ∀ dest, Instruction.decode m.store m.pos = .ok (.input dest) →
      dest.mode = .immediate ∨ dest.Misplaced m.base →
        ∃ e, m.step = (.error e, { m with status := .failed e }) := by
  refine ⟨fun e n hs ↦ ⟨unchanged_or_runsOff h hs, pos_of_failed h hs, ?_, inputs_of_failed h hs⟩,
    fun n ↦ completed_of_alive h, fun dest ↦ step_of_unwritable h⟩
  by_cases hst : m.starved
  · exact .inl hst
  · exact .inr (step_sources hst hs)

end

/-- An input in the last cells of the image. -/
def parting : Machine Empty := (load [3, 0]).feed [7, 8]

/-- The word is stored before the machine runs off, and is not read at all if there is no cell to
store it in. -/
theorem step_all_or_nothing_of_parting :
    parting.status = .running ∧ ∃ e n, parting.step = (.error e, n) ∧
      parting.RunsOff (.input ⟨0, .position⟩) e n ∧
      e = { kind := .counter, value := some 2, address := some 0 } ∧
      n.inputs = [8] ∧ n.store.get 0 = 7 ∧
      ∃ f, ((load [103, 0]).feed [7] : Machine Empty).step =
        (.error f, { (load [103, 0]).feed [7] with status := .failed f }) := by
  have hr : parting.status = .running := rfl
  obtain ⟨e, n, hs⟩ : ∃ e n, parting.step = (.error e, n) := ⟨_, _, rfl⟩
  have hi : n.inputs = [8] := by cases hs; rfl
  have hbad := (step_all_or_nothing (π := Empty) (m := (load [103, 0]).feed [7]) rfl).2.2
    ⟨0, .immediate⟩ rfl (.inl rfl)
  refine ⟨hr, e, n, hs, ?_⟩
  rcases ((step_all_or_nothing hr).1 e n hs).1 with hn | ⟨i, hoff⟩
  · cases hi.symm.trans (congrArg Processor.inputs hn)
  · obtain ⟨v, hw, hn⟩ := hoff.state
    cases hoff.decoded
    cases hw
    exact ⟨hoff, hoff.failure, hi, congrArg (·.store.get 0) hn, hbad⟩

end Intcode.Machine
