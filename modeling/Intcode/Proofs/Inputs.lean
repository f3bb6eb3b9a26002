import Intcode.Proofs.Plan

namespace Intcode

namespace Processor

variable {p q : Processor}

/-- All of the state but for the queue of inputs. -/
def bare (p : Processor) : Processor := { p with inputs := [] }

theorem plan_of_bare (h : p.bare = q.bare) : p.plan = q.plan := by
  have hp : p.bare.plan = q.bare.plan := congrArg plan h
  exact hp

theorem inputTarget?_of_bare (h : p.bare = q.bare) : p.inputTarget? = q.inputTarget? := by
  have hp : p.bare.inputTarget? = q.bare.inputTarget? := congrArg inputTarget? h
  exact hp

theorem fields_of_bare (h : p.bare = q.bare) :
    p.status = q.status ∧ p.pos = q.pos ∧ p.store = q.store := by
  have hp := Processor.mk.inj h
  exact ⟨hp.2.2.2.2.2, hp.2.1, hp.1⟩

theorem bare_apply (p : Processor) (effect : Effect) :
    (p.apply effect).bare = p.bare.apply effect := by
  cases effect <;> rfl

end Processor

namespace Machine

/-- Two machines that have the same input to come. -/
structure SameSupply {π : Type} (m n : Machine π) : Prop where
  inputs : m.inputs = n.inputs
  producer : m.producer = n.producer
  console : m.console = n.console

section
variable {π₁ π₂ : Type} [Producer π₁] [Producer π₂] {x : Machine π₁} {y : Machine π₂}

theorem takeInput_bare (x : Machine π₁) : x.takeInput.2.bare = x.bare := by
  rw [takeInput_toProcessor]
  rfl

variable (hb : x.bare = y.bare) (ht : x.inputTarget?.isSome → x.takeInput.1 = y.takeInput.1)
include hb ht

theorem exists_takeInput_of_bare {address : Nat} {next : Int} {x' : Machine π₁}
    {answer : Except Failure Word} (hr : x.status = .running)
    (hp : x.plan = .ok (.request address next)) (hx : x.takeInput = (answer, x')) :
    ∃ y', y.takeInput = (answer, y') ∧ x'.bare = y'.bare := by
  have hi := Processor.inputTarget?_eq_some_iff.mpr ⟨hr, next, hp⟩
  have ha := ht (Option.isSome_of_eq_some hi)
  have hbx := x.takeInput_bare
  rw [hx] at ha hbx
  exact ⟨y.takeInput.2, Prod.ext ha.symm rfl, (hbx.trans hb).trans y.takeInput_bare.symm⟩

theorem Acts.agree {x' : Machine π₁} {next : Int} (hr : x.status = .running)
    (ha : Acts x x' next) : ∃ y', Acts y y' next ∧ x'.bare = y'.bare := by
  have hplan := Processor.plan_of_bare hb
  have happly {x : Machine π₁} {y : Machine π₂} (hb : x.bare = y.bare) (effect : Effect) :
      (x.apply effect).bare = (y.apply effect).bare := by
    have hx := x.bare_apply effect
    have hy := y.bare_apply effect
    rw [hb] at hx
    exact hx.trans hy.symm
  cases ha with
  | act hp => exact ⟨_, .act (hplan.symm.trans hp), happly hb _⟩
  | read hp hx =>
    obtain ⟨y', hy, hb'⟩ := exists_takeInput_of_bare hb ht hr hp hx
    exact ⟨_, .read (hplan.symm.trans hp) hy, happly hb' _⟩

/-- Where the input comes from makes no difference to a step, as long as it is the same word. -/
theorem step_agree : x.step.1 = y.step.1 ∧ x.step.2.bare = y.step.2.bare := by
  have hplan := Processor.plan_of_bare hb
  obtain ⟨hstatus, -, -⟩ := Processor.fields_of_bare hb
  suffices h : ∃ y', y.step = (x.step.1, y') ∧ x.step.2.bare = y'.bare by
    obtain ⟨y', hy, hb'⟩ := h
    rw [hy]
    exact ⟨rfl, hb'⟩
  rcases hs : x.step with ⟨answer, n⟩
  cases step_eq_iff.mp hs with
  | rest h => exact ⟨y, step_of_halted (hstatus.symm.trans h), hb⟩
  | fault h => exact ⟨y, step_of_failed (hstatus.symm.trans h), hb⟩
  | @stuck e h hp =>
    exact ⟨_, step_eq_iff.mpr (.stuck (hstatus.symm.trans h) (hplan.symm.trans hp)),
      congrArg ({ · with status := .failed e }) hb⟩
  | halt h hp =>
    exact ⟨_, step_eq_iff.mpr (.halt (hstatus.symm.trans h) (hplan.symm.trans hp)),
      congrArg ({ · with status := .halted }) hb⟩
  | @refused x' address next e h hp hx =>
    obtain ⟨y', hy, hb'⟩ := exists_takeInput_of_bare hb ht h hp hx
    obtain ⟨-, hpos, -⟩ := Processor.fields_of_bare hb'
    have hs' := step_eq_iff.mpr (.refused (hstatus.symm.trans h) (hplan.symm.trans hp) hy)
    exact ⟨_, hs'.trans (by rw [hpos]),
      congrArg (fun p ↦ { p with status := .failed (e.locate p.pos) }) hb'⟩
  | @move x' next h ha hn =>
    obtain ⟨y', hy, hb'⟩ := ha.agree hb ht h
    obtain ⟨-, -, hstore⟩ := Processor.fields_of_bare hb'
    rw [hstore] at hn
    exact ⟨_, step_eq_iff.mpr (.move (hstatus.symm.trans h) hy hn),
      congrArg ({ · with pos := next.toNat }) hb'⟩
  | @leave x' next h ha hn =>
    obtain ⟨y', hy, hb'⟩ := ha.agree hb ht h
    obtain ⟨-, hpos, hstore⟩ := Processor.fields_of_bare hb'
    rw [hstore] at hn
    have hs' := step_eq_iff.mpr (.leave (hstatus.symm.trans h) hy hn)
    exact ⟨_, hs'.trans (by rw [hpos]),
      congrArg (fun p ↦ { p with status := .failed ((Failure.outOfBounds next).locate p.pos) }) hb'⟩

end

variable {π : Type} [Producer π] {m : Machine π}

/-- A step that reads no input leaves what is to come. -/
theorem step_supply_of_none (h : m.inputTarget? = none) : SameSupply m.step.2 m := by
  have hno {address : Nat} {next : Int} (hr : m.status = .running) :
      m.plan ≠ .ok (.request address next) := by
    intro hp
    rw [Processor.inputTarget?_eq_some_iff.mpr ⟨hr, next, hp⟩] at h
    cases h
  have hacts {m' : Machine π} {next : Int} (hr : m.status = .running) (ha : Acts m m' next) :
      SameSupply m' m := by
    cases ha with
    | @act effect _ hp => cases effect <;> exact ⟨rfl, rfl, rfl⟩
    | read hp ht => exact absurd hp (hno hr)
  rcases hs : m.step with ⟨answer, n⟩
  cases step_eq_iff.mp hs with
  | rest | fault | stuck | halt => exact ⟨rfl, rfl, rfl⟩
  | refused hr hp ht => exact absurd hp (hno hr)
  | move hr ha | leave hr ha =>
    have hm := hacts hr ha
    exact ⟨hm.inputs, hm.producer, hm.console⟩

omit [Producer π] in
theorem arrive_frame (m : Machine π) (next : Int) :
    SameSupply (m.arrive next).2 m ∧ (m.arrive next).2.store = m.store := by
  unfold arrive
  split <;> exact ⟨⟨rfl, rfl, rfl⟩, rfl⟩

/-- A step that reads an input takes it out of the supply, and stores it if there is one. -/
theorem step_supply_of_some {address : Nat} (h : m.inputTarget? = some address) :
    SameSupply m.step.2 m.takeInput.2 ∧
      (∀ w, m.takeInput.1 = .ok w → m.step.2.store = m.store.set address w) ∧
      ∀ e, m.takeInput.1 = .error e → m.step.1 = .error (e.locate m.pos) := by
  obtain ⟨hr, next, hp⟩ := Processor.inputTarget?_eq_some_iff.mp h
  obtain ⟨-, hpos, hstore⟩ := Processor.fields_of_bare m.takeInput_bare
  rcases ht : m.takeInput with ⟨e | w, n⟩ <;> rw [ht] at hpos hstore
  · have hpos : n.pos = m.pos := hpos
    rw [step_eq_iff.mpr (.refused hr hp ht), hpos]
    exact ⟨⟨rfl, rfl, rfl⟩, nofun, fun e' he ↦ by cases he; rfl⟩
  · have hstore : n.store = m.store := hstore
    rw [step_of_acts hr (.read hp ht)]
    obtain ⟨hs, hst⟩ := (n.apply (.write address w)).arrive_frame next
    refine ⟨⟨hs.inputs, hs.producer, hs.console⟩, fun w' hw ↦ ?_, nofun⟩
    cases hw
    rw [hst, ← hstore]
    rfl

end Machine

end Intcode
