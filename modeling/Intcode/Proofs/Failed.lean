import Intcode.Machine.Script
import Intcode.Proofs.Driver
import Intcode.Proofs.Plan

namespace Intcode

theorem Console.ask_fails (c : Console) : FailsAs (fun e ↦ e.kind = .input) c.ask.1 := by
  unfold Console.ask
  dsimp only
  split
  · exact .error rfl
  · split
    · exact .error rfl
    · split
      · exact .ok _
      · exact .error rfl

theorem Console.neverFaults_ask (c : Console) : NeverFaults c.ask.1 := by
  intro e he hk
  cases hk.symm.trans (c.ask_fails e he)

namespace Machine

variable {π : Type}

namespace Request

def onStore (s : Store) : Request π → Store
  | .write a v => (s.write a v).toOption.getD s
  | _ => s

def onPos (pos : Nat) : Request π → Nat
  | .moveTo pos => pos
  | _ => pos

def onInputs (ws : List Word) : Request π → List Word
  | .feed vs => ws ++ vs
  | _ => ws

def onProducer (s : Option π) : Request π → Option π
  | .attach s => some s
  | _ => s

end Request

variable [Producer π]

/-- What the producer answers in the next step, if that asks it. -/
def consulted? (m : Machine π) : Option (Except Failure Word) :=
  match m.inputTarget?, m.inputs, m.producer with
  | some _, [], some s => some (Producer.answer s m.toProcessor).1
  | _, _, _ => none

section
variable {m n m' x : Machine π} {cause : Failure} {fuel : Nat} {answer : Except Failure Answer}
  {requests : List (Request π)} (h : m.status = .failed cause)
include h

theorem consulted?_of_failed : m.consulted? = none ∧ m.asksConsole = false := by
  have ht : m.inputTarget? = none :=
    Processor.inputTarget?_of_not_running fun hr ↦ by rw [h] at hr; cases hr
  simp only [consulted?, asksConsole, ht, h]
  exact ⟨trivial, trivial⟩

theorem nextOutput?_of_failed (fuel : Nat) :
    m.nextOutput? fuel = some (.error cause.asFault, m) :=
  nextOutput?_of_pending (pending?_of_failed h) fuel

theorem gather?_of_failed (fuel count : Nat) :
    m.gather? fuel (count + 1) = some (.error cause.asFault, m) := by
  rw [gather?, nextOutput?_of_failed h]

theorem Call.eq_of_failed {c : Call} (hc : c.perform? fuel m = some (answer, n)) :
    n = m ∧ (c ≠ .nextOutputs 0 → answer = .error cause.asFault) := by
  cases c with
  | step =>
    rw [perform?, step_of_failed h] at hc
    cases hc
    exact ⟨rfl, fun _ ↦ rfl⟩
  | run =>
    cases fuel with
    | zero => cases hc
    | succ fuel =>
      rw [perform?, run?_of_error (step_of_failed h)] at hc
      cases hc
      exact ⟨rfl, fun _ ↦ rfl⟩
  | nextOutput =>
    rw [perform?, nextOutput?_of_failed h] at hc
    cases hc
    exact ⟨rfl, fun _ ↦ rfl⟩
  | nextOutputs count =>
    obtain ⟨-, r, hb, rfl⟩ := exists_batch hc
    generalize m.takes fuel count = vs at hb
    cases hb with
    | filled => exact ⟨rfl, fun hn ↦ absurd rfl hn⟩
    | failed ho =>
      cases (nextOutput?_of_failed h fuel).symm.trans ho
      exact ⟨rfl, fun _ ↦ rfl⟩
    | short ho | more ho => cases (nextOutput?_of_failed h fuel).symm.trans ho
  | execute budget =>
    rw [perform?, execute_of_pending (pending?_of_failed h)] at hc
    cases hc
    exact ⟨rfl, fun _ ↦ rfl⟩

theorem Call.returns_of_failed {c : Call} (hc : c.HasRoom) :
    ∃ answer, c.perform? 1 m = some (answer, m) := by
  cases c with
  | step => exact ⟨_, by rw [perform?, step_of_failed h]⟩
  | run => exact ⟨_, by rw [perform?, run?_of_error (step_of_failed h)]; rfl⟩
  | nextOutput => exact ⟨_, by rw [perform?, nextOutput?_of_failed h]; rfl⟩
  | nextOutputs count =>
    rw [perform?_batch hc]
    cases count with
    | zero => exact ⟨_, rfl⟩
    | succ count => exact ⟨_, by rw [gather?_of_failed h]; rfl⟩
  | execute budget => exact ⟨_, by rw [perform?, execute_of_pending (pending?_of_failed h)]⟩

theorem Call.eq_of_passes {c : Call} (hx : c.Passes x m) : x = m := by
  have hbatch (count : Nat) : ¬BatchPasses x count m := by
    intro hb
    cases count with
    | zero => exact hb
    | succ count =>
      rcases hb with ⟨k, hno, -⟩ | ⟨fuel, v, n, ho, -⟩
      · rw [nextOutput?_of_failed h] at hno
        cases hno
      · rw [nextOutput?_of_failed h] at ho
        cases ho
  cases c with
  | step => exact hx
  | run =>
    obtain ⟨k, -, rfl⟩ := hx
    exact after_of_failed h k
  | nextOutput => exact absurd hx (hbatch 1)
  | nextOutputs count => exact absurd hx.2 (hbatch count)
  | execute budget =>
    obtain ⟨k, -, hno, -⟩ := hx
    rw [nextOutput?_of_failed h] at hno
    cases hno

theorem Request.eq_of_failed {request : Request π}
    (hr : request.perform? fuel m = some (answer, n)) :
    n = { m with
      store := request.onStore m.store
      pos := request.onPos m.pos
      inputs := request.onInputs m.inputs
      producer := request.onProducer m.producer } := by
  cases request with
  | call c => exact (Call.eq_of_failed h hr).1
  | feed | attach | read => cases hr; rfl
  | moveTo pos =>
    cases hr
    have hs : m.status ≠ .halted := fun he ↦ by rw [h] at he; cases he
    rw [Machine.moveTo, if_neg hs]
    rfl
  | write a v =>
    cases hr
    rw [Machine.write, onStore]
    cases m.store.write a v <;> rfl

theorem Request.returns_of_failed {request : Request π}
    (hroom : ∀ c, request = .call c → c.HasRoom) :
    ∃ answer n, request.perform? 1 m = some (answer, n) := by
  cases request with
  | call c =>
    obtain ⟨answer, hc⟩ := Call.returns_of_failed h (hroom c rfl)
    exact ⟨answer, m, hc⟩
  | feed | moveTo | attach | write | read => exact ⟨_, _, rfl⟩

theorem Request.failed_of_perform? {request : Request π}
    (hr : request.perform? fuel m = some (answer, n)) : n.status = .failed cause := by
  rw [Request.eq_of_failed h hr]
  exact h

theorem exists_driven_of_failed (hroom : ∀ c, .call c ∈ requests → c.HasRoom) :
    ∃ answers taken m', Driven m requests answers taken m' := by
  induction requests generalizing m with
  | nil => exact ⟨_, _, _, .nil m⟩
  | cons request requests ih =>
    obtain ⟨answer, n, hr⟩ :=
      Request.returns_of_failed h fun c hc ↦ hroom c (List.mem_cons.mpr (.inl hc.symm))
    obtain ⟨answers, taken, m', hd⟩ := ih (Request.failed_of_perform? h hr)
      fun c hc ↦ hroom c (List.mem_cons_of_mem request hc)
    exact ⟨_, _, _, .cons 1 hr hd⟩

theorem Visits.failed (hv : Visits x m requests) : x.status = .failed cause := by
  induction hv with
  | here hx => rw [Call.eq_of_passes h hx]; exact h
  | later hr hv ih => exact ih (Request.failed_of_perform? h hr)

theorem Request.taken_of_failed (fuel : Nat) (request : Request π) : request.taken fuel m = [] := by
  have hbatch (count : Nat) : m.takes fuel count = [] := by
    cases count with
    | zero => rfl
    | succ count => rw [takes, nextOutput?_of_failed h]
  cases request with
  | call c =>
    cases c with
    | step | run => rfl
    | nextOutput => exact hbatch 1
    | nextOutputs count => exact hbatch count
    | execute budget =>
      rw [Request.taken, Call.taken, execute_of_pending (pending?_of_failed h)]
      rfl
  | feed | moveTo | attach | write | read => rfl

/-- What the requests ask for is all that is done to a machine that has failed. -/
theorem Driven.eq_of_failed {answers : List (Except Failure Answer)} {taken : List Word}
    (hd : Driven m requests answers taken m') :
    taken = [] ∧ m' = { m with
      store := requests.foldl Request.onStore m.store
      pos := requests.foldl Request.onPos m.pos
      inputs := requests.foldl Request.onInputs m.inputs
      producer := requests.foldl Request.onProducer m.producer } := by
  induction hd with
  | nil => exact ⟨rfl, rfl⟩
  | cons fuel hr hd ih =>
    obtain ⟨ht, he⟩ := ih (Request.failed_of_perform? h hr)
    refine ⟨by rw [Request.taken_of_failed h, ht]; rfl, ?_⟩
    rw [he, Request.eq_of_failed h hr]
    rfl

theorem Driven.answer_of_failed {answers : List (Except Failure Answer)} {taken : List Word}
    (hd : Driven m requests answers taken m') {i : Nat} {c : Call}
    (hi : requests[i]? = some (.call c)) (hc : c ≠ .nextOutputs 0) :
    answers[i]? = some (.error cause.asFault) := by
  induction hd generalizing i with
  | nil => cases hi
  | cons fuel hr hd ih =>
    cases i with
    | zero =>
      cases hi
      rw [(Call.eq_of_failed h hr).2 hc]
      rfl
    | succ i => exact ih (Request.failed_of_perform? h hr) hi

end

section
variable {m m' : Machine π}

theorem kind_of_refused {address : Nat} {next : Int} {e : Failure} (h : m.status = .running)
    (hp : m.plan = .ok (.request address next)) (ht : m.takeInput = (.error e, m'))
    (hq : ∀ e, m.consulted? = some (.error e) → e.kind ≠ .fault) : e.kind ≠ .fault := by
  cases hi : m.inputs with
  | cons v vs => rw [takeInput_of_queued hi] at ht; cases ht
  | nil =>
    cases hs : m.producer with
    | none =>
      rw [takeInput_of_console hi hs] at ht
      exact m.console.neverFaults_ask e (Prod.mk.inj ht).1
    | some s =>
      rw [takeInput_of_producer hi hs] at ht
      have ha : (Producer.answer s m.toProcessor).1 = .error e := (Prod.mk.inj ht).1
      have hc : m.consulted? = some (Producer.answer s m.toProcessor).1 := by
        rw [consulted?, Processor.inputTarget?_of_plan h hp, hi, hs]
        rfl
      exact hq e (hc.trans (congrArg some ha))

/-- A step that fails with a fault has been given it by the producer, unless it is that of a machine
that had failed before. -/
theorem kind_of_failed_step (hm : ∀ e, m.status = .failed e → e.kind ≠ .fault)
    (hq : ∀ e, m.consulted? = some (.error e) → e.kind ≠ .fault) :
    ∀ e, m.step.2.status = .failed e → e.kind ≠ .fault := by
  intro e he
  rcases hs : m.step with ⟨answer, n⟩
  rw [hs] at he
  cases step_eq_iff.mp hs with
  | rest h => cases h.symm.trans he
  | fault h => exact hm e he
  | stuck h hp => cases he; exact m.neverFaults_plan e hp
  | halt => cases he
  | refused h hp ht =>
    cases he
    have hk := kind_of_refused h hp ht hq
    exact hk
  | move h ha => cases (ha.status_eq.trans h).symm.trans he
  | leave => cases he; exact nofun

theorem Request.status_eq_or {request : Request π} {n : Machine π} {fuel : Nat}
    {answer : Except Failure Answer} (hc : ∀ c, request ≠ .call c)
    (hr : request.perform? fuel m = some (answer, n)) :
    n.status = m.status ∨ n.status = .running ∧ ∃ pos, request = .moveTo pos := by
  cases request with
  | call c => exact absurd rfl (hc c)
  | feed | attach | read => cases hr; exact .inl rfl
  | moveTo pos =>
    cases hr
    rw [Machine.moveTo]
    split
    · exact .inr ⟨rfl, pos, rfl⟩
    · exact .inl rfl
  | write a v =>
    cases hr
    left
    rw [Machine.write]
    cases m.store.write a v <;> rfl

end

/-- A machine that has failed answers every call that there is room for, with the fault that names
the first failure, and nothing changes but what the driver itself changes. No failure is that of a machine that had failed
before, unless a producer brings one in. -/
theorem failed_absorbs (m : Machine π) (requests : List (Request π)) :
    (∀ cause, m.status = .failed cause →
      ((∀ c, .call c ∈ requests → c.HasRoom) →
        ∃ answers taken m', Driven m requests answers taken m') ∧
      (∀ x, Visits x m requests → x.consulted? = none ∧ x.asksConsole = false) ∧
      ∀ answers taken m', Driven m requests answers taken m' →
        taken = [] ∧
        m' = { m with
          store := requests.foldl Request.onStore m.store
          pos := requests.foldl Request.onPos m.pos
          inputs := requests.foldl Request.onInputs m.inputs
          producer := requests.foldl Request.onProducer m.producer } ∧
        ∀ (i : Nat) c, requests[i]? = some (.call c) → c ≠ .nextOutputs 0 →
          answers[i]? = some (.error { cause with kind := .fault, note := cause.kind.text })) ∧
    ((∀ cause, m.status = .failed cause → cause.kind ≠ .fault) →
      (∀ x, Visits x m requests → ∀ e, x.consulted? = some (.error e) → e.kind ≠ .fault) →
      ∀ answers taken m', Driven m requests answers taken m' →
        ∀ cause, m'.status = .failed cause → cause.kind ≠ .fault) := by
  refine ⟨fun cause h ↦ ⟨exists_driven_of_failed h, fun x hx ↦ ?_, ?_⟩, ?_⟩
  · exact consulted?_of_failed (hx.failed h)
  · intro answers taken m' hd
    obtain ⟨ht, he⟩ := hd.eq_of_failed h
    exact ⟨ht, he, fun i c hi hc ↦ hd.answer_of_failed h hi hc⟩
  · intro hm hq answers taken m' hd
    refine hd.invariant (P := fun x ↦ ∀ e, x.status = .failed e → e.kind ≠ .fault)
      (fun vs n hn ↦ hn) (fun x hx hn ↦ kind_of_failed_step hn (hq x hx)) ?_ hm
    intro request hr hc x n fuel answer hp hn e he
    obtain hs | ⟨hs, -⟩ := Request.status_eq_or hc hp
    · exact hn e (hs.symm.trans he)
    · cases hs.symm.trans he

/-- A machine that has come upon a word that is no instruction, with input still to be had. -/
def wreck : Machine Script where
  store := .ofList [1, 0, 0, 0, 42]
  pos := 4
  inputs := [7]
  outputs := [3]
  status := .failed ((Failure.unknownOpcode 42).locate 4)
  producer := some (.answers [5])

/-- The word is repaired and the counter moved back, to no avail. -/
theorem failed_absorbs_of_wreck :
    let requests : List (Request Script) :=
      [.write 4 99, .moveTo 0, .feed [8], .call (.execute 0), .call .run]
    ∃ answers m', Driven wreck requests answers [] m' ∧
      answers[4]? = some (.error ⟨.fault, "DECODE ERROR", some 42, some 4⟩) ∧
      m' = { wreck with store := .ofList [1, 0, 0, 0, 99], pos := 0, inputs := [7, 8] } := by
  intro requests
  obtain ⟨hreturns, -, hall⟩ := (failed_absorbs wreck requests).1 _ rfl
  have hroom (c : Call) (hc : .call c ∈ requests) : c.HasRoom := by
    obtain rfl | rfl : c = .execute 0 ∨ c = .run := by simpa [requests] using hc
    · trivial
    · trivial
  obtain ⟨answers, taken, m', hd⟩ := hreturns hroom
  obtain ⟨rfl, he, ha⟩ := hall answers taken m' hd
  exact ⟨answers, m', hd, ha 4 .run rfl nofun, he⟩

/-- Every call is answered with the fault, but for a batch of no outputs. That is filled, since the
failure is first looked at when an output is wanted. A batch that there is no room for breaks down
on this machine as on any other. -/
theorem failed_answers {m : Machine π} {cause : Failure} (h : m.status = .failed cause) :
    let fault : Failure := { cause with kind := .fault, note := cause.kind.text }
    m.step = (.error fault, m) ∧
    (∀ fuel, m.run? (fuel + 1) = some (.error fault, m)) ∧
    (∀ fuel, m.nextOutput? fuel = some (.error fault, m)) ∧
    (∀ budget, m.execute budget = (.error fault, m)) ∧
    (∀ fuel count, count < batchRoom →
      m.nextOutputs? fuel (count + 1) = .ok (some (.error fault, m))) ∧
    (∀ fuel, m.nextOutputs? fuel 0 = .ok (some (.ok (some []), m))) ∧
    ∀ fuel count, batchRoom < count → m.nextOutputs? fuel count = .error .capacityOverflow := by
  intro fault
  refine ⟨step_of_failed h, run?_of_error (step_of_failed h), nextOutput?_of_failed h,
    execute_of_pending (pending?_of_failed h), fun fuel count hc ↦ ?_, fun fuel ↦ ?_,
    fun fuel count hc ↦ nextOutputs?_of_lt hc fuel m⟩
  · rw [nextOutputs?_of_le hc, gather?_of_failed h]
    rfl
  · rw [nextOutputs?_of_le (Nat.zero_le batchRoom)]
    rfl

theorem failed_answers_of_wreck :
    let fault : Failure := ⟨.fault, "DECODE ERROR", some 42, some 4⟩
    wreck.status = .failed ((Failure.unknownOpcode 42).locate 4) ∧
      wreck.execute 0 = (.error fault, wreck) ∧
      wreck.nextOutputs? 1 3 = .ok (some (.error fault, wreck)) ∧
      wreck.nextOutputs? 1 0 = .ok (some (.ok (some []), wreck)) ∧
      wreck.nextOutputs? 1 (2 ^ 60) = .error .capacityOverflow := by
  intro fault
  have h : wreck.status = .failed ((Failure.unknownOpcode 42).locate 4) := rfl
  obtain ⟨-, -, -, hexecute, hbatch, hnone, hroom⟩ := failed_answers h
  exact ⟨h, hexecute 0, hbatch 1 2 (by decide), hnone 1, hroom 1 _ (by decide)⟩

theorem exists_call_without_fault : ¬∀ (m : Machine Script) (cause : Failure) (count : Nat),
    m.status = .failed cause →
      ∃ fuel, m.nextOutputs? fuel count = .ok (some (.error cause.asFault, m)) := by
  intro h
  obtain ⟨fuel, hf⟩ := h wreck _ 0 rfl
  cases hf

end Machine

end Intcode
