import Intcode.Machine.Script
import Intcode.Proofs.Control
import Intcode.Proofs.Queues

namespace Intcode

theorem Script.ne_dumpLength_of_reaches {s t : Script} (h : s ≠ .dumpLength)
    (ht : Producer.Reaches s t) : t ≠ .dumpLength := by
  induction ht with
  | refl => exact h
  | @ask t p _ ih =>
    intro he
    apply ih
    cases t with
    | dumpLength => rfl
    | answers vs => cases vs <;> cases he
    | cell | compare | position | base | refuse => cases he

theorem Script.ignoresOutputs {s : Script} (h : s ≠ .dumpLength) : Producer.IgnoresOutputs s := by
  intro t ht p outputs
  cases t with
  | dumpLength => exact absurd rfl (ne_dumpLength_of_reaches h ht)
  | answers vs => cases vs <;> rfl
  | cell | compare | position | base | refuse => rfl

namespace Machine

variable {π : Type} [Producer π]

/-- Outputs are taken one by one until a call has none to give: the outputs, how the last call
ended, and the machine that is left. -/
inductive Drains : Machine π → List Word → Except Failure Unit → Machine π → Prop
  | halt {m m' : Machine π} {fuel : Nat} (h : m.nextOutput? fuel = some (.ok none, m')) :
      Drains m [] (.ok ()) m'
  | fail {m m' : Machine π} {fuel : Nat} {e : Failure}
      (h : m.nextOutput? fuel = some (.error e, m')) : Drains m [] (.error e) m'
  | take {m n m' : Machine π} {fuel : Nat} {v : Word} {vs : List Word}
      {ending : Except Failure Unit} (h : m.nextOutput? fuel = some (.ok (some v), n))
      (hd : Drains n vs ending m') : Drains m (v :: vs) ending m'

theorem run?_prepend {m : Machine π} (h : m.IgnoresOutputs) (vs : List Word) (fuel : Nat) :
    (prepend vs m).run? fuel =
      (m.run? fuel).map fun r ↦ (r.1.map (vs ++ ·), prepend vs r.2) := by
  have hp {m n : Machine π} {answer : Except Failure Bool} (h : m.IgnoresOutputs)
      (hs : m.step = (answer, n)) : (prepend vs m).step = (answer, prepend vs n) := by
    rw [step_prepend h, hs]
  fun_induction run? fuel m with
  | case1 m => rfl
  | case2 m fuel e n hs => rw [run?_of_error (hp h hs)]; rfl
  | case3 m fuel n hs => rw [run?_of_halt (hp h hs)]; rfl
  | case4 m fuel n hs ih => rw [run?_of_alive (hp h hs), ih (h.step hs)]

/-- An output that is taken could as well have stayed in the queue. -/
theorem exists_run?_eq {m n : Machine π} {v : Word} {fuel : Nat} (h : m.IgnoresOutputs)
    (ho : m.nextOutput? fuel = some (.ok (some v), n)) :
    n.IgnoresOutputs ∧ ∃ k, ∀ f, m.run? (f + k) = (prepend [v] n).run? f := by
  fun_induction nextOutput? fuel m with
  | case1 fuel m answer m' hp =>
    rcases answer with e | w <;> cases ho
    have he := prepend_of_pending? hp
    refine ⟨?_, 0, fun f ↦ by rw [he]; rfl⟩
    rw [← he] at h
    exact h
  | case2 => cases ho
  | case3 => cases ho
  | case4 => cases ho
  | case5 m hp fuel m' hs ih =>
    obtain ⟨hn, k, hk⟩ := ih (h.step hs) ho
    exact ⟨hn, k + 1, fun f ↦ by rw [← Nat.add_assoc, run?_of_alive hs, hk]⟩

theorem run?_of_no_output {m m' : Machine π} {fuel : Nat}
    (h : m.nextOutput? fuel = some (.ok none, m')) :
    m'.outputs = [] ∧ ∃ f, m.run? f = some (.ok [], m') := by
  fun_induction nextOutput? fuel m with
  | case1 fuel m answer m' hp => rcases answer with e | w <;> cases h
  | case2 => cases h
  | case3 => cases h
  | case4 m hp fuel m' hs =>
    cases h
    have ho : m'.outputs = [] := by
      cases step_eq_iff.mp hs with
      | rest | halt => exact (pending?_eq_none_iff.mp hp).2
    exact ⟨ho, 1, by rw [run?_of_halt hs, ho]⟩
  | case5 m hp fuel n hs ih =>
    obtain ⟨ho, f, hf⟩ := ih h
    exact ⟨ho, f + 1, by rw [run?_of_alive hs, hf]⟩

theorem run?_of_failed_output {m m' : Machine π} {fuel : Nat} {e : Failure}
    (h : m.nextOutput? fuel = some (.error e, m')) : ∃ f, m.run? f = some (.error e, m') := by
  fun_induction nextOutput? fuel m with
  | case1 fuel m answer m' hp =>
    rcases answer with e | w <;> cases h
    obtain ⟨rfl, cause, hs, rfl⟩ := failed_of_pending? hp
    exact ⟨1, run?_of_error (step_of_failed hs) 0⟩
  | case2 => cases h
  | case3 m hp fuel e n hs => cases h; exact ⟨1, run?_of_error hs 0⟩
  | case4 => cases h
  | case5 m hp fuel n hs ih =>
    obtain ⟨f, hf⟩ := ih h
    exact ⟨f + 1, by rw [run?_of_alive hs, hf]⟩

/-- Had the outputs not been taken, they would all be in the queue at the end. -/
theorem Drains.run? {m m' : Machine π} {vs : List Word} {ending : Except Failure Unit}
    (hd : Drains m vs ending m') (h : m.IgnoresOutputs) :
    (ending = .ok () → m'.outputs = []) ∧
      ∃ fuel, m.run? fuel = some (ending.map fun _ ↦ vs, prepend vs m') := by
  -- Each output taken is put back in front of all that the rest of the run makes of the queue.
  induction hd with
  | halt ho =>
    obtain ⟨he, fuel, hf⟩ := run?_of_no_output ho
    exact ⟨fun _ ↦ he, fuel, hf⟩
  | fail ho =>
    obtain ⟨fuel, hf⟩ := run?_of_failed_output ho
    exact ⟨nofun, fuel, hf⟩
  | @take m n m' _ v vs ending ho hd ih =>
    obtain ⟨hn, k, hk⟩ := exists_run?_eq h ho
    obtain ⟨he, fuel, hf⟩ := ih hn
    refine ⟨he, fuel + k, ?_⟩
    rw [hk, run?_prepend hn, hf, Option.map_some, prepend_prepend]
    cases ending <;> rfl

theorem Drains.prepend {m m' : Machine π} {vs : List Word} {ending : Except Failure Unit}
    (h : ∀ e, m.status ≠ .failed e) (hd : Drains m vs ending m') (us : List Word) :
    Drains (prepend us m) (us ++ vs) ending m' := by
  induction us with
  | nil => exact hd
  | cons u us ih =>
    have hp : (Machine.prepend (u :: us) m).pending? = some (.ok u, Machine.prepend us m) :=
      pending?_of_cons h rfl
    exact .take (nextOutput?_of_pending hp 0) ih

theorem Drains.of_step {m n m' : Machine π} {vs : List Word} {ending : Except Failure Unit}
    (hp : m.pending? = none) (hs : m.step = (.ok true, n)) (hd : Drains n vs ending m') :
    Drains m vs ending m' := by
  cases hd with
  | halt h => exact .halt ((nextOutput?_of_alive hp hs _).trans h)
  | fail h => exact .fail ((nextOutput?_of_alive hp hs _).trans h)
  | take h hd => exact .take ((nextOutput?_of_alive hp hs _).trans h) hd

theorem exists_drains {m : Machine π} {fuel : Nat} {r : Except Failure (List Word) × Machine π}
    (h : m.IgnoresOutputs) (hr : m.run? fuel = some r) :
    ∃ vs ending m', Drains m vs ending m' := by
  induction fuel generalizing m r with
  | zero => cases hr
  | succ fuel ih =>
    cases hs : m.status with
    | failed cause =>
      exact ⟨_, _, _, .fail (nextOutput?_of_pending (pending?_of_failed hs) 0)⟩
    | running | halted =>
      -- The outputs in the queue are taken first, and the rest does not depend on them.
      let n : Machine π := { m with outputs := [] }
      have hm : m = prepend m.outputs n := by simp only [n, prepend, List.append_nil]
      have hn : ∀ e, n.status ≠ .failed e := fun e he ↦ by cases hs.symm.trans he
      have hi : n.IgnoresOutputs := h
      have hp : n.pending? = none := pending?_eq_none_iff.mpr ⟨hn, rfl⟩
      suffices ∃ vs ending m', Drains n vs ending m' by
        obtain ⟨vs, ending, m', hd⟩ := this
        rw [hm]
        exact ⟨_, ending, m', hd.prepend hn m.outputs⟩
      rw [hm, run?_prepend hi] at hr
      obtain ⟨r', hr', -⟩ := Option.map_eq_some_iff.mp hr
      rcases hstep : n.step with ⟨e | _ | _, n'⟩
      · exact ⟨_, _, _, .fail (nextOutput?_of_error hp hstep 0)⟩
      · exact ⟨_, _, _, .halt (nextOutput?_of_halt hp hstep 0)⟩
      · rw [run?_of_alive hstep] at hr'
        obtain ⟨vs, ending, m', hd⟩ := ih (hi.step hstep) hr'
        exact ⟨vs, ending, m', hd.of_step hp hstep⟩

theorem Drains.eq_of_run? {m m₁ m₂ : Machine π} {vs : List Word} {ending : Except Failure Unit}
    {answer : Except Failure (List Word)} {fuel : Nat} (hd : Drains m vs ending m₂)
    (h : m.IgnoresOutputs) (hr : m.run? fuel = some (answer, m₁)) :
    answer = (ending.map fun _ ↦ vs) ∧ m₁ = Machine.prepend vs m₂ := by
  obtain ⟨-, f, hf⟩ := hd.run? h
  exact Prod.mk.inj (run?_unique hr hf)

/-- A machine whose outputs are taken one by one does what it does when they are collected, and what
has been taken is all that is then missing from its queue. -/
theorem run_iff_drains {m : Machine π} (h : m.IgnoresOutputs) :
    ((∃ fuel r, m.run? fuel = some r) ↔ ∃ vs ending m', Drains m vs ending m') ∧
    (∀ vs, (∃ fuel m', m.run? fuel = some (.ok vs, m')) ↔ ∃ m', Drains m vs (.ok ()) m') ∧
    (∀ e, (∃ fuel m', m.run? fuel = some (.error e, m')) ↔
      ∃ vs m', Drains m vs (.error e) m') ∧
    ∀ fuel answer m₁ vs ending m₂, m.run? fuel = some (answer, m₁) → Drains m vs ending m₂ →
      m₁ = prepend vs m₂ ∧ (ending = .ok () → m₂.outputs = []) := by
  refine ⟨⟨?_, ?_⟩, fun vs ↦ ⟨?_, ?_⟩, fun e ↦ ⟨?_, ?_⟩, ?_⟩
  · intro hr
    obtain ⟨fuel, r, hr⟩ := hr
    exact exists_drains h hr
  · intro hd
    obtain ⟨vs, ending, m', hd⟩ := hd
    obtain ⟨-, fuel, hf⟩ := hd.run? h
    exact ⟨fuel, _, hf⟩
  · intro hr
    obtain ⟨fuel, m', hr⟩ := hr
    obtain ⟨us, ending, n, hd⟩ := exists_drains h hr
    obtain ⟨ha, -⟩ := hd.eq_of_run? h hr
    rcases ending with e | ⟨⟩ <;> cases ha
    exact ⟨n, hd⟩
  · intro hd
    obtain ⟨m', hd⟩ := hd
    obtain ⟨-, fuel, hf⟩ := hd.run? h
    exact ⟨fuel, _, hf⟩
  · intro hr
    obtain ⟨fuel, m', hr⟩ := hr
    obtain ⟨us, ending, n, hd⟩ := exists_drains h hr
    obtain ⟨ha, -⟩ := hd.eq_of_run? h hr
    rcases ending with e | ⟨⟩ <;> cases ha
    exact ⟨us, n, hd⟩
  · intro hd
    obtain ⟨vs, m', hd⟩ := hd
    obtain ⟨-, fuel, hf⟩ := hd.run? h
    exact ⟨fuel, _, hf⟩
  · intro fuel answer m₁ vs ending m₂ hr hd
    exact ⟨(hd.eq_of_run? h hr).2, (hd.run? h).1⟩

def runaway : Machine Script where
  store := .ofList [3, 6, 4, 6, 104, 9]
  outputs := [1]
  producer := some (.answers [5])

theorem run_iff_drains_of_runaway : runaway.IgnoresOutputs ∧
    ∃ vs m', Drains runaway vs (.error ((Failure.outOfBounds 6).locate 4)) m' := by
  have h : runaway.IgnoresOutputs := by
    intro s hs
    cases hs
    exact Script.ignoresOutputs fun he ↦ by cases he
  exact ⟨h, ((run_iff_drains h).2.2.1 _).mp ⟨3, _, rfl⟩⟩

end Machine

end Intcode
