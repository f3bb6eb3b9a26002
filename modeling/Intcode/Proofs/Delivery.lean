import Intcode.Proofs.Transcript

namespace Intcode

namespace Processor

variable {p : Processor} {v : Word}

/-- The instruction at the counter puts out `v`. -/
def PutsOut (p : Processor) (v : Word) : Prop :=
  ∃ source, Instruction.decode p.store p.pos = .ok (.output source) ∧
    source.value p.store p.base = .ok v

theorem PutsOut.plan (h : p.PutsOut v) : p.plan = .ok (.act (.emit v) (p.pos + 2 : Nat)) := by
  obtain ⟨source, hd, hv⟩ := h
  exact plan_eq_ok_iff.mpr ⟨_, hd, planFor_eq_ok_iff.mpr (.emit hv)⟩

theorem PutsOut.pos_le (h : p.PutsOut v) : p.pos + 2 ≤ p.store.size := by
  obtain ⟨source, hd, -⟩ := h
  exact (Instruction.decode_eq_ok_iff.mp hd).2.1

theorem emission_eq_singleton_iff : p.emission = [v] ↔ p.status = .running ∧ p.PutsOut v := by
  constructor
  · intro h
    unfold emission at h
    split at h
    · rename_i source hr hd
      cases hv : source.value p.store p.base with
      | error e => rw [hv] at h; cases h
      | ok w => rw [hv] at h; cases h; exact ⟨hr, source, hd, hv⟩
    · cases h
  · intro h
    exact emission_of_plan h.1 h.2.plan

end Processor

namespace Machine

variable {π : Type}

/-- The machine has put out `v` in the last cells of its image, and failed since there is no cell to
go on to. -/
structure Stranded (m : Machine π) (v : Word) : Prop where
  last : m.PutsOut v ∧ m.pos + 2 = m.store.size
  failed : m.status = .failed ((Failure.outOfBounds m.store.size).locate m.pos)
  queued : m.outputs = [v]

variable [Producer π]

section
variable {m n : Machine π} {v : Word} {e : Failure}

theorem step_of_last (hi : m.Idle) (hv : m.PutsOut v) (hl : m.pos + 2 = m.store.size) :
    ∃ n, m.step = (.error ((Failure.outOfBounds m.store.size).locate m.pos), n) ∧
      n.Stranded v := by
  have hs := step_of_acts hi.running (.act hv.plan)
  have hout : ¬(0 ≤ ((m.pos + 2 : Nat) : Int) ∧ ((m.pos + 2 : Nat) : Int) < m.store.size) := by
    omega
  rw [arrive, apply, Processor.apply, if_neg hout, hl] at hs
  exact ⟨_, hs, ⟨hv, hl⟩, rfl, by rw [hi.taken]; rfl⟩

/-- What a failing instruction puts out is stuck in the queue, and there is only one way for that to
happen. -/
theorem stranded_of_step (hi : m.Idle) (hs : m.step = (.error e, n)) :
    n.outputs = [] ∧ m.emission = [] ∨
      ∃ v, m.emission = [v] ∧ n.Stranded v ∧ n.status = .failed e := by
  have ho : n.outputs = m.emission := by
    have ho := m.step_outputs
    rwa [hs, hi.taken] at ho
  rcases m.emission_eq with he | ⟨v, he⟩
  · exact .inl ⟨ho.trans he, he⟩
  · right
    obtain ⟨-, hv⟩ := Processor.emission_eq_singleton_iff.mp he
    -- Otherwise the counter can move on, and the step succeeds.
    by_cases hl : m.pos + 2 = m.store.size
    · obtain ⟨n', hs', hn⟩ := step_of_last hi hv hl
      cases hs.symm.trans hs'
      exact ⟨v, he, hn, failed_of_step (ne_failed_of_running hi.running) hs⟩
    · have hin : 0 ≤ ((m.pos + 2 : Nat) : Int) ∧ ((m.pos + 2 : Nat) : Int) < m.store.size := by
        have := hv.pos_le
        omega
      have hs' := step_of_acts hi.running (.act hv.plan)
      rw [arrive, apply, Processor.apply, if_pos hin, hs] at hs'
      cases hs'

end

/-- What is put out by the instructions that a limited run carries out. -/
def puts : Nat → Machine π → List Word
  | 0, _ => []
  | budget + 1, m =>
    match m.pending? with
    | some _ => []
    | none => m.emission ++
      match m.step with
      | (.ok true, n) => puts budget n
      | _ => []

/-- A call has given all that was put out, or else the last word is stranded. -/
def Delivers (put : List Word) (answer : Except Failure Pause) (n : Machine π) : Prop :=
  n.outputs = [] ∧ Pause.taken answer = put ∨
    ∃ v e, put = [v] ∧ n.Stranded v ∧ answer = .error e ∧ n.status = .failed e

section
variable {m n : Machine π}

theorem puts_of_pending {r : Except Failure Word × Machine π} (hp : m.pending? = some r)
    (budget : Nat) : m.puts budget = [] := by
  cases budget with
  | zero => rfl
  | succ budget => rw [puts, hp]

theorem puts_succ (hp : m.pending? = none) {answer : Except Failure Bool}
    (hs : m.step = (answer, n)) (budget : Nat) : m.puts (budget + 1) =
      m.emission ++ if answer = .ok true then n.puts budget else [] := by
  rw [puts, hp]
  simp only [hs]
  rcases answer with e | _ | _ <;> simp

theorem idle_of_step {answer : Except Failure Bool} (hp : m.pending? = none)
    (hs : m.step = (answer, n)) (ha : answer ≠ .ok false) : m.Idle := by
  obtain ⟨hf, ho⟩ := pending?_eq_none_iff.mp hp
  refine ⟨?_, ho⟩
  cases hm : m.status with
  | running => rfl
  | failed e => exact absurd hm (hf e)
  | halted =>
    rw [step_of_halted hm] at hs
    cases hs
    exact absurd rfl ha

theorem quiet_of_halt (hs : m.step = (.ok false, n)) : n.outputs = m.outputs ∧ m.emission = [] := by
  cases step_eq_iff.mp hs with
  | rest h => exact ⟨rfl, Processor.emission_of_not_running fun hr ↦ by cases h.symm.trans hr⟩
  | halt h hp => exact ⟨rfl, Processor.emission_of_plan h hp⟩

theorem execute_delivers (ho : m.outputs = []) (budget : Nat) :
    Delivers (m.puts budget) (m.execute budget).1 (m.execute budget).2 := by
  fun_induction execute budget m with
  | case1 budget m answer n hp =>
    rcases answer with e | v
    · obtain ⟨rfl, -⟩ := failed_of_pending? hp
      exact .inl ⟨ho, (puts_of_pending hp budget).symm⟩
    · have hv : m.outputs = v :: n.outputs := by rw [← prepend_of_pending? hp]; rfl
      cases ho.symm.trans hv
  | case2 m hp => exact .inl ⟨ho, by split <;> rfl⟩
  | case3 m hp budget e n hs =>
    rw [puts_succ hp hs, if_neg (by simp), List.append_nil]
    rcases stranded_of_step (idle_of_step hp hs (by simp)) hs with ⟨hn, he⟩ | ⟨v, he, hn, hf⟩
    · exact .inl ⟨hn, he.symm⟩
    · exact .inr ⟨v, e, he, hn, rfl, hf⟩
  | case4 m hp budget n hs =>
    obtain ⟨hn, he⟩ := quiet_of_halt hs
    rw [puts_succ hp hs, if_neg (by simp), he]
    exact .inl ⟨hn.trans ho, rfl⟩
  | case5 m hp budget n hs ih =>
    have hn := (idle_of_step hp hs (by simp)).outputs_eq hs
    rw [puts_succ hp hs, if_pos rfl]
    rcases m.emission_eq with he | ⟨v, he⟩
    · rw [he]
      exact ih (hn.trans he)
    · -- The word is taken before another instruction is carried out.
      have hq := pending?_of_cons (ne_failed_of_running (running_of_step hs).2) (hn.trans he)
      rw [execute_of_pending hq, puts_of_pending hq, he]
      exact .inl ⟨rfl, rfl⟩

theorem nextOutput?_delivers (ho : m.outputs = []) {fuel : Nat}
    {answer : Except Failure (Option Word)} (h : m.nextOutput? fuel = some (answer, n)) :
    Delivers (m.puts fuel) (answer.map Pause.ofOutput) n := by
  have hd := execute_delivers ho fuel
  rwa [execute_of_answer h] at hd

end

/-- A driver asks for one output after the other, with a limit or without: what is put out
meanwhile, what the driver is given, and the machine that is left. -/
inductive Polls : Machine π → List Word → List Word → Machine π → Prop
  | nil (m : Machine π) : Polls m [] [] m
  | output {m n m' : Machine π} {answer : Except Failure (Option Word)} {put given : List Word}
      (fuel : Nat) (h : m.nextOutput? fuel = some (answer, n)) (hp : Polls n put given m') :
      Polls m (m.puts fuel ++ put) (Pause.taken (answer.map Pause.ofOutput) ++ given) m'
  | execute {m m' : Machine π} {put given : List Word} (budget : Nat)
      (hp : Polls (m.execute budget).2 put given m') :
      Polls m (m.puts budget ++ put) (Pause.taken (m.execute budget).1 ++ given) m'

section
variable {m m' : Machine π} {put given : List Word}

theorem Polls.of_failed {cause : Failure} (h : m.status = .failed cause)
    (hp : Polls m put given m') : put = [] ∧ given = [] ∧ m' = m := by
  have hf := pending?_of_failed h
  induction hp with
  | nil => exact ⟨rfl, rfl, rfl⟩
  | output fuel ho hp ih =>
    rw [nextOutput?_of_pending hf] at ho
    cases ho
    obtain ⟨rfl, rfl, hm⟩ := ih h hf
    exact ⟨by rw [puts_of_pending hf, List.append_nil], rfl, hm⟩
  | execute budget hp ih =>
    rw [execute_of_pending hf] at hp ih ⊢
    obtain ⟨rfl, rfl, hm⟩ := ih h hf
    exact ⟨by rw [puts_of_pending hf, List.append_nil], rfl, hm⟩

/-- The driver has been given all that has been put out, but for a word that is stranded. -/
def Settled (put given : List Word) (m : Machine π) : Prop :=
  m.outputs = [] ∧ given = put ∨ ∃ v, put = given ++ [v] ∧ m.Stranded v

theorem Delivers.settled {us : List Word} {answer : Except Failure Pause} {n : Machine π}
    (hd : Delivers us answer n) (hp : Polls n put given m')
    (ih : n.outputs = [] → Settled put given m') :
    Settled (us ++ put) (Pause.taken answer ++ given) m' := by
  rcases hd with ⟨hn, rfl⟩ | ⟨v, e, rfl, hn, rfl, hf⟩
  · rcases ih hn with ⟨ho, rfl⟩ | ⟨v, rfl, hs⟩
    · exact .inl ⟨ho, rfl⟩
    · exact .inr ⟨v, (List.append_assoc ..).symm, hs⟩
  · obtain ⟨rfl, rfl, rfl⟩ := hp.of_failed hf
    exact .inr ⟨v, rfl, hn⟩

theorem Polls.settled (ho : m.outputs = []) (hp : Polls m put given m') :
    Settled put given m' := by
  induction hp with
  | nil => exact .inl ⟨ho, rfl⟩
  | output fuel h hp ih => exact (nextOutput?_delivers ho h).settled hp ih
  | execute budget hp ih => exact (execute_delivers ho budget).settled hp ih

/-- A driver that takes each output as it comes is given all that is put out. The one exception is a
word that the last instruction of the image puts out: the machine fails in that very step, and the
word is never given. -/
theorem outputs_delivered (ho : m.outputs = []) :
    (∀ budget, Delivers (m.puts budget) (m.execute budget).1 (m.execute budget).2) ∧
    (∀ fuel answer n, m.nextOutput? fuel = some (answer, n) →
      Delivers (m.puts fuel) (answer.map Pause.ofOutput) n) ∧
    (∀ put given m', Polls m put given m' → Settled put given m') ∧
    ∀ v, m.status = .running → m.PutsOut v → m.pos + 2 = m.store.size →
      ∃ e n, n.Stranded v ∧ m.nextOutput? 1 = some (.error e, n) ∧
        (∀ budget, m.execute (budget + 1) = (.error e, n)) ∧
        ∀ put given m', Polls n put given m' → given = [] ∧ m' = n := by
  refine ⟨execute_delivers ho, fun fuel answer n ↦ nextOutput?_delivers ho,
    fun put given m' ↦ Polls.settled ho, fun v hr hv hl ↦ ?_⟩
  have hi : m.Idle := ⟨hr, ho⟩
  obtain ⟨n, hs, hn⟩ := step_of_last hi hv hl
  refine ⟨_, n, hn, nextOutput?_of_error hi.pending? hs 0, execute_of_error hi.pending? hs, ?_⟩
  intro put given m' hp
  exact (hp.of_failed hn.failed).2

end

/-- The second word is put out at the end of the image. -/
def brink : Machine Empty := load [104, 1, 104, 7]

theorem outputs_delivered_of_brink : brink.outputs = [] ∧
    ∃ m', Polls brink [1, 7] [1] m' ∧ m'.Stranded 7 := by
  have ho : ∃ e m', (brink.execute 5).2.nextOutput? 1 = some (.error e, m') := ⟨_, _, rfl⟩
  obtain ⟨e, m', ho⟩ := ho
  have hp : Polls brink [1, 7] [1] m' := .execute 5 (.output 1 ho (.nil m'))
  refine ⟨rfl, m', hp, ?_⟩
  rcases (outputs_delivered rfl).2.2.1 _ _ m' hp with ⟨-, h⟩ | ⟨v, h, hs⟩
  · cases h
  · cases h
    exact hs

theorem exists_output_left :
    ¬∀ (m : Machine Empty) (budget : Nat), m.outputs = [] → (m.execute budget).2.outputs = [] := by
  intro h
  cases h (load [104, 7]) 1 rfl

end Machine

end Intcode
