import Intcode.Proofs.Budget

namespace Intcode.Machine

variable {π : Type}

/-- The calls that make a machine run. -/
inductive Call
  | step
  | run
  | nextOutput
  | nextOutputs (count : Nat)
  | execute (budget : Nat)
deriving DecidableEq, Repr

/-- All that a driver can do with a machine. -/
inductive Request (π : Type)
  | call (c : Call)
  | feed (ws : List Word)
  | moveTo (pos : Nat)
  | attach (s : π)
  | write (address value : Word)
  | read (address : Word)
deriving DecidableEq, Repr

inductive Answer
  | alive (b : Bool)
  | outputs (vs : List Word)
  | output (v : Option Word)
  | batch (vs : Option (List Word))
  | pause (p : Pause)
  | word (w : Word)
  | done
deriving DecidableEq, Repr

variable [Producer π]

/-- A call that breaks down does not answer, and neither does one that needs more than `fuel`
steps. -/
def Call.perform? (fuel : Nat) (m : Machine π) : Call → Option (Except Failure Answer × Machine π)
  | .step => some (m.step.1.map .alive, m.step.2)
  | .run => (m.run? fuel).map fun r ↦ (r.1.map .outputs, r.2)
  | .nextOutput => (m.nextOutput? fuel).map fun r ↦ (r.1.map .output, r.2)
  | .nextOutputs count =>
    (m.nextOutputs? fuel count).toOption.join.map fun r ↦ (r.1.map .batch, r.2)
  | .execute budget => some ((m.execute budget).1.map .pause, (m.execute budget).2)

/-- There can be room for all that the call is to answer with. -/
def Call.HasRoom : Call → Prop
  | .nextOutputs count => count ≤ batchRoom
  | _ => True

section
variable {m : Machine π} {fuel count : Nat}

theorem Call.perform?_batch (h : count ≤ batchRoom) :
    (nextOutputs count).perform? fuel m =
      (m.gather? fuel count).map fun r ↦ (r.1.map .batch, r.2) := by
  rw [perform?, nextOutputs?_of_le h]
  rfl

theorem Call.perform?_of_not_room (h : batchRoom < count) :
    (nextOutputs count).perform? fuel m = none := by
  rw [perform?, nextOutputs?_of_lt h]
  rfl

end

def Request.perform? (fuel : Nat) (m : Machine π) :
    Request π → Option (Except Failure Answer × Machine π)
  | .call c => c.perform? fuel m
  | .feed ws => some (.ok .done, m.feed ws)
  | .moveTo pos => some (.ok .done, m.moveTo pos)
  | .attach s => some (.ok .done, m.attach s)
  | .write a v => some ((m.write a v).1.map fun _ ↦ .done, (m.write a v).2)
  | .read a => some ((m.store.read a).map .word, m)

/-- The outputs that a batch takes from the queue, also when it is dropped. -/
def takes (fuel : Nat) : Nat → Machine π → List Word
  | 0, _ => []
  | count + 1, m =>
    match m.nextOutput? fuel with
    | some (.ok (some v), m) => v :: takes fuel count m
    | _ => []

/-- How a batch of outputs goes: it is filled, or dropped when there is no next output. -/
inductive Batch (fuel : Nat) : Nat → Machine π → Except Failure (Option (List Word)) → List Word →
    Machine π → Prop
  | filled (m : Machine π) : Batch fuel 0 m (.ok (some [])) [] m
  | failed {count : Nat} {m n : Machine π} {e : Failure}
      (h : m.nextOutput? fuel = some (.error e, n)) : Batch fuel (count + 1) m (.error e) [] n
  | short {count : Nat} {m n : Machine π} (h : m.nextOutput? fuel = some (.ok none, n)) :
      Batch fuel (count + 1) m (.ok none) [] n
  | more {count : Nat} {m n m' : Machine π} {v : Word} {vs : List Word}
      {answer : Except Failure (Option (List Word))}
      (h : m.nextOutput? fuel = some (.ok (some v), n)) (hb : Batch fuel count n answer vs m') :
      Batch fuel (count + 1) m (answer.map (·.map (v :: ·))) (v :: vs) m'

theorem batch_iff {fuel count : Nat} {m m' : Machine π} {vs : List Word}
    {answer : Except Failure (Option (List Word))} : Batch fuel count m answer vs m' ↔
      m.gather? fuel count = some (answer, m') ∧ m.takes fuel count = vs := by
  constructor
  · intro hb
    induction hb with
    | filled m => exact ⟨rfl, rfl⟩
    | failed h | short h => rw [gather?, takes, h]; exact ⟨rfl, rfl⟩
    | more h hb ih =>
      obtain ⟨hn, ht⟩ := ih
      rw [gather?, takes, h]
      simp only [hn, ht]
      exact ⟨rfl, trivial⟩
  · intro hb
    obtain ⟨hn, rfl⟩ := hb
    induction count generalizing m answer with
    | zero => cases hn; exact .filled _
    | succ count ih =>
      rw [gather?] at hn
      rw [takes]
      rcases ho : m.nextOutput? fuel with _ | ⟨e | _ | v, n⟩ <;> rw [ho] at hn
      · cases hn
      · cases hn; exact .failed ho
      · cases hn; exact .short ho
      · obtain ⟨r, hr, he⟩ := Option.map_eq_some_iff.mp hn
        cases he
        exact .more ho (ih hr)

def Call.taken (fuel : Nat) (m : Machine π) : Call → List Word
  | .step | .run => []
  | .nextOutput => m.takes fuel 1
  | .nextOutputs count => m.takes fuel count
  | .execute budget => Pause.taken (m.execute budget).1

def Request.taken (fuel : Nat) (m : Machine π) : Request π → List Word
  | .call c => c.taken fuel m
  | _ => []

/-- A driver's requests are answered one after the other, each by as many steps as it takes. -/
inductive Driven : Machine π → List (Request π) → List (Except Failure Answer) → List Word →
    Machine π → Prop
  | nil (m : Machine π) : Driven m [] [] [] m
  | cons {m n m' : Machine π} {request : Request π} {requests : List (Request π)}
      {answer : Except Failure Answer} {answers : List (Except Failure Answer)} {taken : List Word}
      (fuel : Nat) (h : request.perform? fuel m = some (answer, n))
      (hd : Driven n requests answers taken m') :
      Driven m (request :: requests) (answer :: answers) (request.taken fuel m ++ taken) m'

/-- On the way to the next output of `m`, or to the end of a batch, a step is taken from `x`. -/
def BatchPasses (x : Machine π) : Nat → Machine π → Prop
  | 0, _ => False
  | count + 1, m => (∃ k, m.nextOutput? k = none ∧ x = m.after k) ∨
      ∃ fuel v n, m.nextOutput? fuel = some (.ok (some v), n) ∧ BatchPasses x count n

/-- The call takes a step from `x`. -/
def Call.Passes (x m : Machine π) : Call → Prop
  | .step => x = m
  | .run => ∃ k, m.run? k = none ∧ x = m.after k
  | .nextOutput => BatchPasses x 1 m
  | .nextOutputs count => count ≤ batchRoom ∧ BatchPasses x count m
  | .execute budget => ∃ k < budget, m.nextOutput? k = none ∧ x = m.after k

/-- While the requests are answered a step is taken from `x`. -/
inductive Visits (x : Machine π) : Machine π → List (Request π) → Prop
  | here {m : Machine π} {c : Call} {requests : List (Request π)} (h : c.Passes x m) :
      Visits x m (.call c :: requests)
  | later {m n : Machine π} {request : Request π} {requests : List (Request π)}
      {answer : Except Failure Answer} {fuel : Nat} (h : request.perform? fuel m = some (answer, n))
      (hv : Visits x n requests) : Visits x m (request :: requests)

theorem exists_steps_of_run {fuel : Nat} {m m' : Machine π} {answer : Except Failure (List Word)}
    (h : m.run? fuel = some (answer, m')) :
    (∃ k, (∀ j < k, m.run? j = none) ∧ m.after k = m') ∧
      ∀ vs, answer = .ok vs → vs = m'.outputs := by
  fun_induction run? fuel m with
  | case1 => cases h
  | case2 m fuel e n hs | case3 m fuel n hs =>
    cases h
    refine ⟨⟨1, fun j hj ↦ ?_, by rw [after, hs]; rfl⟩, fun vs hv ↦ by cases hv <;> rfl⟩
    rw [Nat.lt_one_iff.mp hj]
    rfl
  | case4 m fuel n hs ih =>
    obtain ⟨⟨k, hno, he⟩, hv⟩ := ih h
    refine ⟨⟨k + 1, fun j hj ↦ ?_, by rw [after, hs, he]⟩, hv⟩
    cases j with
    | zero => rfl
    | succ j => exact (run?_of_alive hs j).trans (hno j (by omega))

/-- One output is a batch of its own. -/
theorem gather?_one {fuel : Nat} {m n : Machine π} {r : Except Failure (Option Word)}
    (h : m.nextOutput? fuel = some (r, n)) :
    m.gather? fuel 1 = some (r.map (·.map ([·])), n) := by
  rw [gather?, h]
  rcases r with e | _ | v <;> rfl

section
variable {m n : Machine π} {fuel count : Nat} {answer : Except Failure Answer}

theorem Call.exists_next (h : nextOutput.perform? fuel m = some (answer, n)) :
    ∃ r, Batch fuel 1 m r (m.takes fuel 1) n := by
  obtain ⟨⟨r, n⟩, hr, he⟩ := Option.map_eq_some_iff.mp h
  cases he
  exact ⟨_, batch_iff.mpr ⟨gather?_one hr, rfl⟩⟩

theorem Call.exists_batch (h : (nextOutputs count).perform? fuel m = some (answer, n)) :
    count ≤ batchRoom ∧
      ∃ r, Batch fuel count m r (m.takes fuel count) n ∧ answer = r.map .batch := by
  rcases Nat.lt_or_ge batchRoom count with hc | hc
  · rw [perform?_of_not_room hc] at h
    cases h
  · rw [perform?_batch hc] at h
    obtain ⟨⟨r, n⟩, hr, he⟩ := Option.map_eq_some_iff.mp h
    cases he
    exact ⟨hc, r, batch_iff.mpr ⟨hr, rfl⟩, rfl⟩

end

section
variable {P : Machine π → Prop} {m m' : Machine π} {k fuel : Nat} {answer : Except Failure Answer}

theorem after_invariant (hstep : ∀ j < k, P (m.after j) → P (m.after j).step.2) (hm : P m) :
    P (m.after k) := by
  induction k with
  | zero => exact hm
  | succ k ih =>
    rw [after_succ]
    exact hstep k (by omega) (ih fun j hj ↦ hstep j (by omega))

variable (htake : ∀ vs n, P (prepend vs n) → P n)
include htake

theorem Batch.invariant {count : Nat} {vs : List Word}
    {answer : Except Failure (Option (List Word))} (hb : Batch fuel count m answer vs m')
    (hstep : ∀ x, BatchPasses x count m → P x → P x.step.2) (hm : P m) : P m' := by
  have hnext {m n : Machine π} {r : Except Failure (Option Word)}
      (ho : m.nextOutput? fuel = some (r, n))
      (hs : ∀ k, m.nextOutput? k = none → P (m.after k) → P (m.after k).step.2) (hm : P m) :
      P n := by
    obtain ⟨k, hno, he⟩ := exists_steps_of_answer ho
    refine htake (Pause.taken (r.map Pause.ofOutput)) n ?_
    rw [← he]
    exact after_invariant (fun j hj ↦ hs j (hno j hj)) hm
  induction hb with
  | filled => exact hm
  | failed h | short h => exact hnext h (fun k hk ↦ hstep _ (.inl ⟨k, hk, rfl⟩)) hm
  | more h hb ih =>
    exact ih (fun x hx ↦ hstep x (.inr ⟨fuel, _, _, h, hx⟩))
      (hnext h (fun k hk ↦ hstep _ (.inl ⟨k, hk, rfl⟩)) hm)

/-- What the steps of a call and the taking of outputs preserve is preserved by the call. -/
theorem Call.invariant {c : Call} (hstep : ∀ x, c.Passes x m → P x → P x.step.2)
    (h : c.perform? fuel m = some (answer, m')) (hm : P m) : P m' := by
  cases c with
  | step =>
    cases h
    exact hstep m rfl hm
  | run =>
    obtain ⟨⟨r, n⟩, hr, he⟩ := Option.map_eq_some_iff.mp h
    cases he
    obtain ⟨⟨k, hno, rfl⟩, -⟩ := exists_steps_of_run hr
    exact after_invariant (fun j hj ↦ hstep _ ⟨j, hno j hj, rfl⟩) hm
  | nextOutput =>
    obtain ⟨r, hb⟩ := exists_next h
    exact hb.invariant htake (fun x hx ↦ hstep x hx) hm
  | nextOutputs count =>
    obtain ⟨hc, r, hb, -⟩ := exists_batch h
    exact hb.invariant htake (fun x hx ↦ hstep x ⟨hc, hx⟩) hm
  | execute budget =>
    cases h
    obtain ⟨k, hk, hno, he⟩ := exists_steps_eq budget m
    refine htake (Pause.taken (m.execute budget).1) _ ?_
    rw [← he]
    exact after_invariant (fun j hj ↦ hstep _ ⟨j, by omega, hno j hj, rfl⟩) hm

end

/-- What the single steps, the taking of outputs and the driver's own changes preserve is preserved
by all that a driver does. -/
theorem Driven.invariant {P : Machine π → Prop} {m m' : Machine π} {requests : List (Request π)}
    {answers : List (Except Failure Answer)} {taken : List Word}
    (htake : ∀ vs n, P (prepend vs n) → P n)
    (hstep : ∀ x, Visits x m requests → P x → P x.step.2)
    (hedit : ∀ request ∈ requests, (∀ c, request ≠ .call c) → ∀ x n fuel answer,
      request.perform? fuel x = some (answer, n) → P x → P n)
    (hd : Driven m requests answers taken m') (hm : P m) : P m' := by
  induction hd with
  | nil => exact hm
  | @cons m n m' request requests answer answers taken fuel h hd ih =>
    refine ih (fun x hx ↦ hstep x (.later h hx))
      (fun r hr ↦ hedit r (List.mem_cons_of_mem request hr)) ?_
    cases request with
    | call c => exact Call.invariant htake (fun x hx ↦ hstep x (.here hx)) h hm
    | feed | moveTo | attach | write | read =>
      exact hedit _ List.mem_cons_self nofun m n fuel answer h hm

end Intcode.Machine
