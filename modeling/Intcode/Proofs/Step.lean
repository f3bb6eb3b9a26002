import Intcode.Machine.Control

namespace Intcode.Machine

variable {π : Type}

/-- How an instruction ends that has made its change. -/
def arrive (m : Machine π) (next : Int) : Except Failure Bool × Machine π :=
  if 0 ≤ next ∧ next < m.store.size then (.ok true, { m with pos := next.toNat })
  else (.error ((Failure.outOfBounds next).locate m.pos),
    { m with status := .failed ((Failure.outOfBounds next).locate m.pos) })

theorem arrive_eq (m : Machine π) (next : Int) :
    (match m.advance next with
    | (.ok alive, m) => (.ok alive, m)
    | (.error e, m) => (.error e, { m with status := .failed e })) = m.arrive next := by
  by_cases hn : 0 ≤ next ∧ next < m.store.size
  · simp only [advance, Processor.advance, arrive, if_pos hn]
  · simp only [advance, Processor.advance, arrive, if_neg hn]

theorem apply_status (m : Machine π) (effect : Effect) : (m.apply effect).status = m.status := by
  cases effect <;> rfl

variable [Producer π]

theorem takeInput_of_queued {m : Machine π} {v : Word} {vs : List Word} (hi : m.inputs = v :: vs) :
    m.takeInput = (.ok v, { m with inputs := vs }) := by
  simp only [takeInput, hi]

theorem takeInput_of_producer {m : Machine π} {s : π} (hi : m.inputs = [])
    (hs : m.producer = some s) :
    m.takeInput = ((Producer.answer s m.toProcessor).1,
      { m with producer := some (Producer.answer s m.toProcessor).2 }) := by
  simp only [takeInput, hi, hs]

theorem takeInput_of_console {m : Machine π} (hi : m.inputs = []) (hs : m.producer = none) :
    m.takeInput = (m.console.ask.1, { m with console := m.console.ask.2 }) := by
  simp only [takeInput, hi, hs]

theorem takeInput_toProcessor (m : Machine π) :
    m.takeInput.2.toProcessor = { m.toProcessor with inputs := m.inputs.tail } := by
  cases hi : m.inputs with
  | cons v vs => rw [takeInput_of_queued hi]; rfl
  | nil =>
    cases hs : m.producer with
    | some s => rw [takeInput_of_producer hi hs, List.tail_nil, ← hi]
    | none => rw [takeInput_of_console hi hs, List.tail_nil, ← hi]

/-- The instruction at the counter changes `m` into `m'` and goes on to `next`. -/
inductive Acts (m : Machine π) : Machine π → Int → Prop
  | act {effect : Effect} {next : Int} (hp : m.plan = .ok (.act effect next)) :
      Acts m (m.apply effect) next
  | read {m' : Machine π} {address : Nat} {v : Word} {next : Int}
      (hp : m.plan = .ok (.request address next)) (ht : m.takeInput = (.ok v, m')) :
      Acts m (m'.apply (.write address v)) next

theorem Acts.status_eq {m m' : Machine π} {next : Int} (ha : Acts m m' next) :
    m'.status = m.status := by
  cases ha with
  | act hp => exact apply_status m _
  | read hp ht =>
    have hm := congrArg Processor.status m.takeInput_toProcessor
    rw [ht] at hm
    exact hm

/-- What a step can do, with its answer and the machine that it leaves. -/
inductive Step (m : Machine π) : Except Failure Bool → Machine π → Prop
  | rest (h : m.status = .halted) : Step m (.ok false) m
  | fault {cause : Failure} (h : m.status = .failed cause) : Step m (.error cause.asFault) m
  | stuck {e : Failure} (h : m.status = .running) (hp : m.plan = .error e) :
      Step m (.error e) { m with status := .failed e }
  | halt (h : m.status = .running) (hp : m.plan = .ok .halt) :
      Step m (.ok false) { m with status := .halted }
  | refused {m' : Machine π} {address : Nat} {next : Int} {e : Failure} (h : m.status = .running)
      (hp : m.plan = .ok (.request address next)) (ht : m.takeInput = (.error e, m')) :
      Step m (.error (e.locate m'.pos)) { m' with status := .failed (e.locate m'.pos) }
  | move {m' : Machine π} {next : Int} (h : m.status = .running) (ha : Acts m m' next)
      (hn : 0 ≤ next ∧ next < m'.store.size) : Step m (.ok true) { m' with pos := next.toNat }
  | leave {m' : Machine π} {next : Int} (h : m.status = .running) (ha : Acts m m' next)
      (hn : ¬(0 ≤ next ∧ next < m'.store.size)) :
      Step m (.error ((Failure.outOfBounds next).locate m'.pos))
        { m' with status := .failed ((Failure.outOfBounds next).locate m'.pos) }

theorem step_of_acts {m m' : Machine π} {next : Int} (h : m.status = .running)
    (ha : Acts m m' next) : m.step = m'.arrive next := by
  cases ha with
  | act hp => simp only [step, h, cycle, hp]; exact arrive_eq _ next
  | read hp ht => simp only [step, h, cycle, hp, ht]; exact arrive_eq _ next

theorem step_eq_iff {m m' : Machine π} {answer : Except Failure Bool} :
    m.step = (answer, m') ↔ Step m answer m' := by
  constructor
  · intro hs
    cases h : m.status with
    | halted => rw [step_of_halted h] at hs; cases hs; exact .rest h
    | failed cause => rw [step_of_failed h] at hs; cases hs; exact .fault h
    | running =>
      have hacts {n : Machine π} {next : Int} (ha : Acts m n next) : Step m answer m' := by
        rw [step_of_acts h ha, arrive] at hs
        split at hs <;> rename_i hn <;> cases hs
        · exact .move h ha hn
        · exact .leave h ha hn
      cases hp : m.plan with
      | error e => simp only [step, h, cycle, hp] at hs; cases hs; exact .stuck h hp
      | ok plan =>
        cases plan with
        | halt => simp only [step, h, cycle, hp] at hs; cases hs; exact .halt h hp
        | act effect next => exact hacts (.act hp)
        | request address next =>
          rcases ht : m.takeInput with ⟨e | v, n⟩
          · simp only [step, h, cycle, hp, ht] at hs; cases hs; exact .refused h hp ht
          · exact hacts (.read hp ht)
  · intro hs
    cases hs with
    | rest h => exact step_of_halted h
    | fault h => exact step_of_failed h
    | stuck h hp | halt h hp => simp only [step, h, cycle, hp]
    | refused h hp ht => simp only [step, h, cycle, hp, ht]
    | move h ha hn => rw [step_of_acts h ha, arrive, if_pos hn]
    | leave h ha hn => rw [step_of_acts h ha, arrive, if_neg hn]

theorem running_of_step {m m' : Machine π} (hs : m.step = (.ok true, m')) :
    m.status = .running ∧ m'.status = .running := by
  cases step_eq_iff.mp hs with
  | move h ha hn => exact ⟨h, ha.status_eq.trans h⟩

omit [Producer π] in
theorem ne_failed_of_running {m : Machine π} (h : m.status = .running) (e : Failure) :
    m.status ≠ .failed e := fun he ↦ by cases h.symm.trans he

theorem failed_of_step {m m' : Machine π} {e : Failure} (h : ∀ e, m.status ≠ .failed e)
    (hs : m.step = (.error e, m')) : m'.status = .failed e := by
  cases step_eq_iff.mp hs with
  | fault hf => exact absurd hf (h _)
  | stuck | refused | leave => rfl

def after : Nat → Machine π → Machine π
  | 0, m => m
  | k + 1, m => after k m.step.2

theorem after_succ (k : Nat) (m : Machine π) : m.after (k + 1) = (m.after k).step.2 := by
  induction k generalizing m with
  | zero => rfl
  | succ k ih => exact ih m.step.2

theorem after_add (a b : Nat) (m : Machine π) : m.after (a + b) = (m.after a).after b := by
  induction b with
  | zero => rfl
  | succ b ih => rw [← Nat.add_assoc, after_succ, after_succ, ih]

theorem after_of_still {m : Machine π} (h : m.step.2 = m) (k : Nat) : m.after k = m := by
  induction k with
  | zero => rfl
  | succ k ih => rw [after, h, ih]

theorem after_of_failed {m : Machine π} {e : Failure} (h : m.status = .failed e) (k : Nat) :
    m.after k = m := after_of_still (by rw [step_of_failed h]) k

end Intcode.Machine
