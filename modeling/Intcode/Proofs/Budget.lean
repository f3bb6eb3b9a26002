import Intcode.Proofs.Control
import Intcode.Proofs.Queues
import Mathlib.Tactic.ByContra

namespace Intcode

def Pause.ofOutput : Option Word → Pause
  | some v => .output v
  | none => .halted

theorem Pause.map_ofOutput_injective {a b : Except Failure (Option Word)}
    (h : a.map ofOutput = b.map ofOutput) : a = b := by
  rcases a with e | (_ | v) <;> rcases b with e' | (_ | v') <;>
    simp_all only [Except.map, ofOutput, Except.ok.injEq, Except.error.injEq, Pause.output.injEq,
      reduceCtorEq]

theorem Pause.map_ofOutput_ne_running (answer : Except Failure (Option Word)) :
    answer.map ofOutput ≠ .ok .running := by
  rcases answer with e | (_ | v) <;> simp only [Except.map, ofOutput] <;> exact nofun

/-- The outputs that a limited run takes from the queue. -/
def Pause.taken : Except Failure Pause → List Word
  | .ok (.output v) => [v]
  | _ => []

namespace Machine

variable {π : Type}

variable [Producer π]

theorem execute_of_halted {m : Machine π} (h : m.status = .halted) (hp : m.pending? = none)
    (budget : Nat) : m.execute budget = (.ok .halted, m) := by
  cases budget with
  | zero => rw [execute_zero hp, if_pos h]
  | succ budget => rw [execute_of_halt hp (step_of_halted h)]

theorem execute_of_answer {fuel : Nat} {m m' : Machine π} {answer : Except Failure (Option Word)}
    (h : m.nextOutput? fuel = some (answer, m')) :
    m.execute fuel = (answer.map Pause.ofOutput, m') := by
  fun_induction nextOutput? fuel m with
  | case1 fuel m answer m' hp =>
    cases h
    rw [execute_of_pending hp]
    cases answer <;> rfl
  | case2 m hp => cases h
  | case3 m hp fuel e m' hs => cases h; exact execute_of_error hp hs fuel
  | case4 m hp fuel m' hs => cases h; exact execute_of_halt hp hs fuel
  | case5 m hp fuel m' hs ih => rw [execute_of_alive hp hs]; exact ih h

theorem execute_of_no_answer {fuel : Nat} {m : Machine π} (h : m.nextOutput? fuel = none) :
    m.execute fuel = (.ok .running, m.after fuel) ∨ m.pending? = none ∧ m.status = .halted := by
  fun_induction nextOutput? fuel m with
  | case1 => cases h
  | case2 m hp =>
    by_cases hh : m.status = .halted
    · exact .inr ⟨hp, hh⟩
    · rw [execute_zero hp, if_neg hh]
      exact .inl rfl
  | case3 => cases h
  | case4 => cases h
  | case5 m hp fuel m' hs ih =>
    left
    obtain he | ⟨-, hh⟩ := ih h
    · rw [execute_of_alive hp hs, he, after, hs]
    · rw [(running_of_step hs).2] at hh
      cases hh

theorem exists_answer_of_ended {n : Nat} {m : Machine π} (h : (m.execute n).1 ≠ .ok .running) :
    ∃ fuel answer m', m.nextOutput? fuel = some (answer, m') ∧
      m.execute n = (answer.map Pause.ofOutput, m') := by
  cases ho : m.nextOutput? n with
  | some r => exact ⟨n, r.1, r.2, ho, execute_of_answer ho⟩
  | none =>
    obtain he | ⟨hp, hh⟩ := execute_of_no_answer ho
    · exact absurd (congrArg Prod.fst he) h
    · exact ⟨1, .ok none, m, nextOutput?_of_halt hp (step_of_halted hh) 0,
        execute_of_halted hh hp n⟩

theorem execute_add_of_running {a : Nat} {m m' : Machine π}
    (h : m.execute a = (.ok .running, m')) (b : Nat) : m.execute (a + b) = m'.execute b := by
  fun_induction execute a m with
  | case1 a m answer n hp => cases answer <;> cases h
  | case2 m hp =>
    obtain ⟨-, rfl⟩ := Prod.mk.inj h
    rw [Nat.zero_add]
  | case3 => cases h
  | case4 => cases h
  | case5 m hp a n hs ih => rw [Nat.succ_add, execute_of_alive hp hs]; exact ih h

theorem execute_add_of_ended {a : Nat} {m : Machine π} (h : (m.execute a).1 ≠ .ok .running)
    (b : Nat) : m.execute (a + b) = m.execute a := by
  fun_induction execute a m with
  | case1 a m answer n hp => rw [execute_of_pending hp]
  | case2 m hp =>
    by_cases hh : m.status = .halted
    · rw [execute_of_halted hh hp, if_pos hh]
    · exact absurd (by rw [if_neg hh]) h
  | case3 m hp a e n hs => rw [Nat.succ_add, execute_of_error hp hs]
  | case4 m hp a n hs => rw [Nat.succ_add, execute_of_halt hp hs]
  | case5 m hp a n hs ih => rw [Nat.succ_add, execute_of_alive hp hs]; exact ih h

theorem exists_steps_eq (n : Nat) (m : Machine π) :
    ∃ k ≤ n, (∀ j < k, m.nextOutput? j = none) ∧
      m.after k = prepend (Pause.taken (m.execute n).1) (m.execute n).2 := by
  fun_induction execute n m with
  | case1 n m answer m' hp =>
    refine ⟨0, n.zero_le, nofun, ?_⟩
    cases answer with
    | ok v => exact (prepend_of_pending? hp).symm
    | error e => rw [(failed_of_pending? hp).1]; rfl
  | case2 m hp => exact ⟨0, Nat.le_refl 0, nofun, by split <;> rfl⟩
  | case3 m hp n e m' hs | case4 m hp n m' hs =>
    refine ⟨1, by omega, fun j hj ↦ ?_, by rw [after, hs]; rfl⟩
    rw [Nat.lt_one_iff.mp hj]
    exact nextOutput?_zero hp
  | case5 m hp n m' hs ih =>
    obtain ⟨k, hk, hno, he⟩ := ih
    refine ⟨k + 1, by omega, fun j hj ↦ ?_, by rw [after, hs, he]⟩
    cases j with
    | zero => exact nextOutput?_zero hp
    | succ j => exact (nextOutput?_of_alive hp hs j).trans (hno j (by omega))

theorem exists_after_eq (n : Nat) (m : Machine π) :
    ∃ k ≤ n, m.after k = prepend (Pause.taken (m.execute n).1) (m.execute n).2 := by
  obtain ⟨k, hk, -, he⟩ := exists_steps_eq n m
  exact ⟨k, hk, he⟩

/-- A call for the next output takes the steps before which it was not there, then the output. -/
theorem exists_steps_of_answer {fuel : Nat} {m m' : Machine π}
    {answer : Except Failure (Option Word)} (h : m.nextOutput? fuel = some (answer, m')) :
    ∃ k, (∀ j < k, m.nextOutput? j = none) ∧
      m.after k = prepend (Pause.taken (answer.map Pause.ofOutput)) m' := by
  obtain ⟨k, -, hno, he⟩ := exists_steps_eq fuel m
  rw [execute_of_answer h] at he
  exact ⟨k, hno, he⟩

/-- A limited run that has ended never took its limit into account, and one that has not can be
continued as if it had not been stopped. -/
theorem execute_budget (m : Machine π) :
    (∀ a b m', m.execute a = (.ok .running, m') → m.execute (a + b) = m'.execute b) ∧
    (∀ a b, (m.execute a).1 ≠ .ok .running → m.execute (a + b) = m.execute a) ∧
    (∀ answer m', (∃ fuel, m.nextOutput? fuel = some (answer, m')) ↔
      ∃ n, m.execute n = (answer.map Pause.ofOutput, m')) ∧
    ((∀ fuel, m.nextOutput? fuel = none) ↔ ∀ n, (m.execute n).1 = .ok .running) ∧
    (∀ n, ∃ k ≤ n, m.after k = prepend (Pause.taken (m.execute n).1) (m.execute n).2) := by
  refine ⟨fun a b m' h ↦ execute_add_of_running h b, fun a b h ↦ execute_add_of_ended h b,
    fun answer m' ↦ ⟨?_, ?_⟩, ⟨?_, ?_⟩, fun n ↦ exists_after_eq n m⟩
  · intro ho
    obtain ⟨fuel, h⟩ := ho
    exact ⟨fuel, execute_of_answer h⟩
  · intro he
    obtain ⟨n, h⟩ := he
    have hn : (m.execute n).1 ≠ .ok .running := by
      rw [h]; exact Pause.map_ofOutput_ne_running answer
    obtain ⟨fuel, answer', n', ho, he⟩ := exists_answer_of_ended hn
    obtain ⟨ha, rfl⟩ := Prod.mk.inj (h.symm.trans he)
    exact ⟨fuel, Pause.map_ofOutput_injective ha ▸ ho⟩
  · intro h n
    by_contra hn
    obtain ⟨fuel, answer, m', ho, -⟩ := exists_answer_of_ended hn
    rw [h fuel] at ho
    cases ho
  · intro h fuel
    by_contra hf
    obtain ⟨⟨answer, m'⟩, ho⟩ := Option.ne_none_iff_exists'.mp hf
    have he := congrArg Prod.fst (execute_of_answer ho)
    exact Pause.map_ofOutput_ne_running answer (he.symm.trans (h fuel))

end Machine

end Intcode
