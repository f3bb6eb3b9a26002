import Intcode.Proofs.Control
import Intcode.Proofs.Queues

namespace Intcode

namespace Machine

variable {π : Type}

theorem feed_nil (m : Machine π) : m.feed [] = m := by simp only [feed, List.append_nil]

theorem feed_feed (m : Machine π) (us vs : List Word) :
    (m.feed us).feed vs = m.feed (us ++ vs) := by
  simp only [feed, List.append_assoc]

theorem pending?_feed (m : Machine π) (ws : List Word) :
    (m.feed ws).pending? = m.pending?.map fun r ↦ (r.1, r.2.feed ws) := by
  cases hs : m.status with
  | failed e => rw [pending?_of_failed hs, pending?_of_failed (m := m.feed ws) hs]; rfl
  | running | halted => cases ho : m.outputs <;> simp only [pending?, feed, hs, ho] <;> rfl

theorem starved_of_feed {m : Machine π} {ws : List Word} (h : (m.feed ws).starved) : m.starved := by
  obtain ⟨hr, hi, hp⟩ := starved_iff.mp h
  exact starved_iff.mpr ⟨hr, (List.append_eq_nil_iff.mp hi).1, hp⟩

variable [Producer π]

/-- The next output is found, or known not to come, without a word of input that is not queued. -/
def Supplied (m : Machine π) : Prop := ∀ k, m.nextOutput? k = none → ¬(m.after k).starved

theorem Supplied.of_step {m n : Machine π} (h : m.Supplied) (hp : m.pending? = none)
    (hs : m.step = (.ok true, n)) : n.Supplied := by
  intro k hk
  have hk' : m.nextOutput? (k + 1) = none := (nextOutput?_of_alive hp hs k).trans hk
  have ha := h (k + 1) hk'
  rw [after, hs] at ha
  exact ha

theorem supplied_of_returns {m : Machine π} {fuel : Nat}
    {r : Except Failure (Option Word) × Machine π} (ho : m.nextOutput? fuel = some r)
    (h : ∀ k < fuel, ¬(m.after k).starved) : m.Supplied := by
  intro k hk
  exact h k (m.nextOutput?_lasting.lt_of_none ho hk)

theorem nextOutput?_feed {m : Machine π} (h : m.Supplied) (ws : List Word) (fuel : Nat) :
    (m.feed ws).nextOutput? fuel = (m.nextOutput? fuel).map fun r ↦ (r.1, r.2.feed ws) := by
  have hstep {m n : Machine π} {answer : Except Failure Bool} (h : m.Supplied)
      (hp : m.pending? = none) (hs : m.step = (answer, n)) :
      (m.feed ws).pending? = none ∧ (m.feed ws).step = (answer, n.feed ws) := by
    have hm : ¬m.starved := h 0 (nextOutput?_zero hp)
    rw [pending?_feed, step_feed hm, hp, hs]
    exact ⟨rfl, rfl⟩
  -- Until the output is there the machine is not starved, so each of its steps is the same.
  fun_induction nextOutput? fuel m with
  | case1 fuel m answer m' hp =>
    exact nextOutput?_of_pending (by rw [pending?_feed, hp]; rfl) fuel
  | case2 m hp => exact nextOutput?_zero (by rw [pending?_feed, hp]; rfl)
  | case3 m hp fuel e n hs =>
    obtain ⟨hp', hs'⟩ := hstep h hp hs
    exact nextOutput?_of_error hp' hs' fuel
  | case4 m hp fuel n hs =>
    obtain ⟨hp', hs'⟩ := hstep h hp hs
    exact nextOutput?_of_halt hp' hs' fuel
  | case5 m hp fuel n hs ih =>
    obtain ⟨hp', hs'⟩ := hstep h hp hs
    rw [nextOutput?_of_alive hp' hs', ih (h.of_step hp hs)]

theorem after_feed {m : Machine π} {k : Nat} (h : m.Supplied) (ho : m.nextOutput? k = none)
    (ws : List Word) : (m.feed ws).after k = (m.after k).feed ws := by
  fun_induction nextOutput? k m with
  | case1 => cases ho
  | case2 => rfl
  | case3 => cases ho
  | case4 => cases ho
  | case5 m hp k n hs ih =>
    have hm : ¬m.starved := h 0 (nextOutput?_zero hp)
    rw [after, after, step_feed hm, hs, ih (h.of_step hp hs) ho]

theorem Supplied.feed {m : Machine π} (h : m.Supplied) (ws : List Word) :
    (m.feed ws).Supplied := by
  intro k hk hs
  rw [nextOutput?_feed h, Option.map_eq_none_iff] at hk
  rw [after_feed h hk] at hs
  exact h k hk (starved_of_feed hs)

theorem Acts.sources_eq {m m' : Machine π} {next : Int} (h : ¬m.starved)
    (hr : m.status = .running) (ha : Acts m m' next) :
    m'.producer = m.producer ∧ m'.console = m.console := by
  cases ha with
  | act hp => exact ⟨rfl, rfl⟩
  | read hp ht =>
    obtain ⟨v, vs, hi⟩ := exists_queued h hr hp
    rw [takeInput_of_queued hi] at ht
    cases ht
    exact ⟨rfl, rfl⟩

/-- Neither the producer nor the console is asked unless an input is read and none is queued. -/
theorem step_sources {m m' : Machine π} {answer : Except Failure Bool} (h : ¬m.starved)
    (hs : m.step = (answer, m')) : m'.producer = m.producer ∧ m'.console = m.console := by
  cases step_eq_iff.mp hs with
  | rest | fault | stuck | halt => exact ⟨rfl, rfl⟩
  | refused hr hp ht =>
    obtain ⟨v, vs, hi⟩ := exists_queued h hr hp
    rw [takeInput_of_queued hi] at ht
    cases ht
  | move hr ha hn | leave hr ha hn =>
    have hc := ha.sources_eq h hr
    exact hc

omit [Producer π] in
theorem pending?_console {m m' : Machine π} {answer : Except Failure Word}
    (h : m.pending? = some (answer, m')) : m'.console = m.console := by
  unfold pending? at h
  split at h <;> cases h <;> rfl

theorem Supplied.console_eq {m m' : Machine π} {answer : Except Failure (Option Word)} {fuel : Nat}
    (h : m.Supplied) (ho : m.nextOutput? fuel = some (answer, m')) : m'.console = m.console := by
  fun_induction nextOutput? fuel m with
  | case1 fuel m answer n hp => cases ho; exact pending?_console hp
  | case2 => cases ho
  | case3 m hp fuel e n hs => cases ho; exact (step_sources (h 0 (nextOutput?_zero hp)) hs).2
  | case4 m hp fuel n hs => cases ho; exact (step_sources (h 0 (nextOutput?_zero hp)) hs).2
  | case5 m hp fuel n hs ih =>
    exact (ih (h.of_step hp hs) ho).trans (step_sources (h 0 (nextOutput?_zero hp)) hs).2

end Machine

end Intcode
