import Intcode.Machine.Script
import Intcode.Proofs.Drain
import Intcode.Proofs.Driver
import Intcode.Proofs.Plan

namespace Intcode.Machine

variable {π : Type} [Producer π]

/-- What the first `k` steps put out. -/
def emissions : Nat → Machine π → List Word
  | 0, _ => []
  | k + 1, m => m.emission ++ emissions k m.step.2

omit [Producer π] in
theorem apply_outputs (m : Machine π) (effect : Effect) (next : Int) :
    (m.apply effect).outputs = m.outputs ++ (Plan.act effect next).emitted := by
  cases effect with
  | emit v => rfl
  | none | write | rebase => exact (List.append_nil m.outputs).symm

theorem takeInput_outputs {m m' : Machine π} {answer : Except Failure Word}
    (ht : m.takeInput = (answer, m')) : m'.outputs = m.outputs := by
  have hm := congrArg Processor.outputs m.takeInput_toProcessor
  rw [ht] at hm
  exact hm

theorem Acts.outputs_eq {m m' : Machine π} {next : Int} (h : m.status = .running)
    (ha : Acts m m' next) : m'.outputs = m.outputs ++ m.emission := by
  cases ha with
  | @act effect next hp => rw [Processor.emission_of_plan h hp, apply_outputs m effect next]
  | read hp ht =>
    rw [Processor.emission_of_plan h hp]
    exact (takeInput_outputs ht).trans (List.append_nil m.outputs).symm

theorem step_outputs (m : Machine π) : m.step.2.outputs = m.outputs ++ m.emission := by
  rcases hs : m.step with ⟨answer, m'⟩
  cases step_eq_iff.mp hs with
  | rest h | fault h =>
    rw [Processor.emission_of_not_running (by rw [h]; exact nofun), List.append_nil]
  | stuck h hp => rw [Processor.emission_of_stuck hp, List.append_nil]
  | halt h hp =>
    rw [Processor.emission_of_plan h hp]
    exact (List.append_nil m.outputs).symm
  | refused h hp ht =>
    rw [Processor.emission_of_plan h hp]
    exact (takeInput_outputs ht).trans (List.append_nil m.outputs).symm
  | move h ha | leave h ha =>
    have ho := ha.outputs_eq h
    exact ho

theorem after_outputs (k : Nat) (m : Machine π) :
    (m.after k).outputs = m.outputs ++ m.emissions k := by
  induction k generalizing m with
  | zero => exact (List.append_nil m.outputs).symm
  | succ k ih => rw [after, emissions, ih, step_outputs, List.append_assoc]

theorem IgnoresOutputs.after {m : Machine π} (h : m.IgnoresOutputs) (k : Nat) :
    (m.after k).IgnoresOutputs :=
  after_invariant (P := IgnoresOutputs) (fun _ _ hx ↦ hx.step rfl) h

/-- What has been taken out of the queue makes no difference to the steps. -/
theorem after_prepend {m : Machine π} (h : m.IgnoresOutputs) (vs : List Word) (k : Nat) :
    (prepend vs m).after k = prepend vs (m.after k) := by
  induction k with
  | zero => rfl
  | succ k ih => rw [after_succ, after_succ, ih, step_prepend (h.after k)]

/-- From `m` there are steps to `m'`, if the outputs `vs` are put back there. -/
def Leads (vs : List Word) (m m' : Machine π) : Prop := ∃ k, m.after k = prepend vs m'

theorem Leads.ignoresOutputs {vs : List Word} {m m' : Machine π} (hl : Leads vs m m')
    (h : m.IgnoresOutputs) : m'.IgnoresOutputs := by
  obtain ⟨k, hk⟩ := hl
  have hm : (prepend vs m').IgnoresOutputs := hk ▸ h.after k
  exact hm

theorem Leads.trans {us vs : List Word} {m n m' : Machine π} (h : m.IgnoresOutputs)
    (hl : Leads us m n) (hl' : Leads vs n m') : Leads (us ++ vs) m m' := by
  have hn := hl.ignoresOutputs h
  obtain ⟨k, hk⟩ := hl
  obtain ⟨l, hl⟩ := hl'
  exact ⟨k + l, by rw [after_add, hk, after_prepend hn, hl, prepend_prepend]⟩

theorem leads_of_answer {fuel : Nat} {m m' : Machine π} {answer : Except Failure (Option Word)}
    (h : m.nextOutput? fuel = some (answer, m')) :
    Leads (Pause.taken (answer.map Pause.ofOutput)) m m' := by
  obtain ⟨k, -, he⟩ := exists_steps_of_answer h
  exact ⟨k, he⟩

theorem Batch.leads {fuel count : Nat} {m m' : Machine π} {vs : List Word}
    {answer : Except Failure (Option (List Word))} (hb : Batch fuel count m answer vs m')
    (h : m.IgnoresOutputs) : Leads vs m m' := by
  induction hb with
  | filled m => exact ⟨0, rfl⟩
  | failed ho | short ho => exact leads_of_answer ho
  | @more _ m n _ v _ _ ho hb ih =>
    have hn : Leads [v] m n := leads_of_answer ho
    exact hn.trans h (ih (hn.ignoresOutputs h))

theorem Call.leads {c : Call} {fuel : Nat} {m m' : Machine π} {answer : Except Failure Answer}
    (h : m.IgnoresOutputs) (hc : c.perform? fuel m = some (answer, m')) :
    Leads (c.taken fuel m) m m' := by
  cases c with
  | step => cases hc; exact ⟨1, rfl⟩
  | run =>
    obtain ⟨⟨r, n⟩, hr, he⟩ := Option.map_eq_some_iff.mp hc
    cases he
    obtain ⟨⟨k, -, he⟩, -⟩ := exists_steps_of_run hr
    exact ⟨k, he⟩
  | nextOutput =>
    obtain ⟨r, hb⟩ := exists_next hc
    exact hb.leads h
  | nextOutputs count =>
    obtain ⟨-, r, hb, -⟩ := exists_batch hc
    exact hb.leads h
  | execute budget =>
    cases hc
    obtain ⟨k, -, -, he⟩ := exists_steps_eq budget m
    exact ⟨k, he⟩

theorem Driven.leads {m m' : Machine π} {calls : List Call}
    {answers : List (Except Failure Answer)} {taken : List Word} (h : m.IgnoresOutputs)
    (hd : Driven m (calls.map .call) answers taken m') : Leads taken m m' := by
  induction calls generalizing m answers taken with
  | nil => cases hd; exact ⟨0, rfl⟩
  | cons c calls ih =>
    cases hd with
    | cons fuel hc hd =>
      have hl := Call.leads h hc
      exact hl.trans h (ih (hl.ignoresOutputs h) hd)

/-- However a driver mixes its calls, the machine is where plain steps lead, and the outputs that
were taken followed by those still queued are those that were queued at first followed by those that
these steps put out. A run takes none of them and shows all that are queued. -/
theorem calls_trajectory {m m' : Machine π} {calls : List Call}
    {answers : List (Except Failure Answer)} {taken : List Word} (h : m.IgnoresOutputs)
    (hd : Driven m (calls.map .call) answers taken m') :
    (∃ k, m.after k = { m' with outputs := taken ++ m'.outputs } ∧
      taken ++ m'.outputs = m.outputs ++ m.emissions k) ∧
    ∀ (n n' : Machine π) fuel answer, n.run? fuel = some (answer, n') →
      (∃ k, n.after k = n' ∧ n'.outputs = n.outputs ++ n.emissions k) ∧
        ∀ vs, answer = .ok vs → vs = n'.outputs := by
  refine ⟨?_, fun n n' fuel answer hr ↦ ?_⟩
  · obtain ⟨k, hk⟩ := hd.leads h
    have ho := after_outputs k m
    rw [hk] at ho
    exact ⟨k, hk, ho⟩
  · obtain ⟨⟨k, -, he⟩, hv⟩ := exists_steps_of_run hr
    have ho := after_outputs k n
    rw [he] at ho
    exact ⟨⟨k, he, ho⟩, hv⟩

/-- The batch is dropped when the machine leaves its image, with an output that is still queued. -/
theorem calls_trajectory_of_runaway :
    let calls : List Call := [.step, .nextOutput, .nextOutputs 5, .execute 3, .run]
    runaway.IgnoresOutputs ∧ ∃ answers m',
      Driven runaway (calls.map .call) answers [1, 5] m' ∧
        ∃ k, runaway.after k = { m' with outputs := [1, 5] ++ m'.outputs } := by
  intro calls
  have h : runaway.IgnoresOutputs := by
    intro s hs
    cases hs
    exact Script.ignoresOutputs fun he ↦ by cases he
  have hd : ∃ answers m', Driven runaway (calls.map .call) answers [1, 5] m' :=
    ⟨_, _, .cons 9 rfl (.cons 9 rfl (.cons 9 rfl (.cons 9 rfl (.cons 9 rfl (.nil _)))))⟩
  obtain ⟨answers, m', hd⟩ := hd
  obtain ⟨k, hk, -⟩ := (calls_trajectory h hd).1
  exact ⟨h, answers, m', hd, k, hk⟩

end Intcode.Machine
