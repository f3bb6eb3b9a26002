import Intcode.Proofs.Course
import Intcode.Proofs.Supply
import Intcode.Proofs.Transcript

namespace Intcode

namespace Processor

variable {p : Processor} {address : Nat}

theorem inputTarget?_eq_some_iff_decode : p.inputTarget? = some address ↔ p.status = .running ∧
    ∃ dest, Instruction.decode p.store p.pos = .ok (.input dest) ∧
      dest.target p.base = .ok address := by
  unfold inputTarget?
  constructor
  · intro h
    split at h
    · rename_i dest hr hd
      cases ht : dest.target p.base with
      | error e => rw [ht] at h; cases h
      | ok a => rw [ht] at h; cases h; exact ⟨hr, dest, hd, ht⟩
    · cases h
  · rintro ⟨hr, dest, hd, ht⟩
    rw [hr, hd]
    simp only [ht]
    rfl

end Processor

namespace Machine

variable {π : Type}

theorem starved_iff_inputTarget? {m : Machine π} :
    m.starved ↔ m.inputs = [] ∧ ∃ address, m.inputTarget? = some address := by
  simp only [starved_iff, Processor.inputTarget?_eq_some_iff]
  grind

theorem asksConsole_iff_starved {m : Machine π} :
    m.asksConsole ↔ m.starved ∧ m.producer = none := by
  rw [asksConsole_iff, starved_iff_inputTarget?, Option.isSome_iff_exists]
  grind

/-- What a producer is shown, if there is one and the step reads an input while none is queued. -/
def Event.question? : Event π → Option Processor
  | .step x => if x.starved then some x.toProcessor else none
  | .attach _ => none

variable [Producer π]

/-- A step asks the producer if it reads an input while none is queued. The producer is shown the
machine before the step. -/
def Event.onProducer (s : Option π) : Event π → Option π
  | .step x => if x.starved then s.map fun s ↦ (Producer.answer s x.toProcessor).2 else s
  | .attach s => some s

def Event.onConsole (c : Console) : Event π → Console
  | .step x => if x.asksConsole then c.ask.2 else c
  | .attach _ => c

section
variable {m n x : Machine π} {es : List (Event π)} {fuel : Nat} {address : Nat}

theorem step_of_starved (ht : x.inputTarget? = some address) (hi : x.inputs = []) :
    x.step.2.producer = Event.onProducer x.producer (.step x) ∧
      x.step.2.console = Event.onConsole x.console (.step x) := by
  have hst : x.starved := starved_iff_inputTarget?.mpr ⟨hi, address, ht⟩
  have hs := (step_supply_of_some ht).1
  rw [hs.producer, hs.console, Event.onProducer, Event.onConsole, if_pos hst]
  cases hp : x.producer with
  | none =>
    rw [takeInput_of_console hi hp, if_pos (asksConsole_iff_starved.mpr ⟨hst, hp⟩)]
    exact ⟨hp, rfl⟩
  | some s =>
    have hno : ¬x.asksConsole := fun ha ↦ by cases hp.symm.trans (asksConsole_iff_starved.mp ha).2
    rw [takeInput_of_producer hi hp, if_neg hno]
    exact ⟨rfl, rfl⟩

theorem step_events (x : Machine π) :
    x.step.2.producer = Event.onProducer x.producer (.step x) ∧
      x.step.2.console = Event.onConsole x.console (.step x) := by
  by_cases hst : x.starved
  · obtain ⟨hi, address, ht⟩ := starved_iff_inputTarget?.mp hst
    exact step_of_starved ht hi
  · have hno : ¬x.asksConsole := fun ha ↦ hst (asksConsole_iff_starved.mp ha).1
    rw [Event.onProducer, Event.onConsole, if_neg hst, if_neg hno]
    exact step_sources hst rfl

theorem edit_events {request : Request π} {answer : Except Failure Answer}
    (hc : ∀ c, request ≠ .call c) (hp : request.perform? fuel x = some (answer, n)) :
    n.producer = (request.attached?.toList.map Event.attach).foldl Event.onProducer x.producer ∧
      n.console = x.console := by
  cases request with
  | call c => exact absurd rfl (hc c)
  | feed | moveTo | attach | read => cases hp; exact ⟨rfl, rfl⟩
  | write a v =>
    cases hp
    rw [Machine.write]
    cases x.store.write a v <;> exact ⟨rfl, rfl⟩

/-- The producer and the console are what the events make of them, one by one. -/
theorem Course.sources_eq (h : Course m es x) :
    x.producer = es.foldl Event.onProducer m.producer ∧
      x.console = es.foldl Event.onConsole m.console := by
  induction h with
  | refl => exact ⟨rfl, rfl⟩
  | @step es x h ih =>
    obtain ⟨hp, hc⟩ := x.step_events
    rw [List.foldl_append, List.foldl_append, ← ih.1, ← ih.2]
    exact ⟨hp, hc⟩
  | take h ih => exact ih
  | @edit es x n request fuel answer h hc hp ih =>
    obtain ⟨hp, hcon⟩ := edit_events hc hp
    rw [List.foldl_append, List.foldl_append, ← ih.1, ← ih.2]
    refine ⟨hp, hcon.trans ?_⟩
    cases request.attached? <;> rfl

theorem foldl_onProducer (h : es.filterMap Event.attached? = []) (t : Option π) :
    es.foldl Event.onProducer t = t.map fun s ↦
      (es.filterMap Event.question?).foldl (fun s p ↦ (Producer.answer s p).2) s := by
  induction es generalizing t with
  | nil => exact Option.map_id'.symm
  | cons e es ih =>
    cases e with
    | attach s => cases h
    | step x =>
      rw [List.foldl_cons, ih h]
      by_cases hs : x.starved
      · rw [Event.onProducer, if_pos hs, Option.map_map]
        rw [List.filterMap_cons_some (b := x.toProcessor) (by rw [Event.question?, if_pos hs])]
        rfl
      · rw [Event.onProducer, if_neg hs]
        rw [List.filterMap_cons_none (by rw [Event.question?, if_neg hs])]

/-- How the step from `x` ends after a source has been asked, which has turned `x` into `n`. The
word goes to the address that the target had before. -/
structure Receives (x n : Machine π) (answer : Except Failure Word) : Prop where
  refused (e : Failure) : answer = .error e →
    x.step = (.error (e.locate x.pos), { n with status := .failed (e.locate x.pos) })
  stored (w : Word) (dest : Operand) (address : Nat) : answer = .ok w →
    Instruction.decode x.store x.pos = .ok (.input dest) → dest.target x.base = .ok address →
      ∃ s, x.store.Stored address w s ∧
        x.step = ({ n with store := s } : Machine π).arrive (x.pos + 2 : Nat)

/-- Which source the step from `x` asks, what it is shown, and what becomes of its answer. A
producer is shown all of the machine but the place that the producer itself is kept in. -/
structure Consults (x : Machine π) : Prop where
  starved_iff : x.starved ↔ x.status = .running ∧ x.inputs = [] ∧ ∃ dest address,
    Instruction.decode x.store x.pos = .ok (.input dest) ∧ dest.target x.base = .ok address
  asksConsole_iff : x.asksConsole ↔ x.starved ∧ x.producer = none
  produced (s : π) : x.starved → x.producer = some s →
    Receives x { x with producer := some (Producer.answer s x.toProcessor).2 }
      (Producer.answer s x.toProcessor).1
  typed : x.asksConsole → Receives x { x with console := x.console.ask.2 } x.console.ask.1
  prompted : x.step.2.console.printed = x.console.printed ++ if x.asksConsole then "?? " else ""

theorem receives_of_starved (h : x.starved) : Receives x x.takeInput.2 x.takeInput.1 := by
  obtain ⟨hr, -, a, next, hp⟩ := Machine.starved_iff.mp h
  obtain ⟨-, hpos, hstore⟩ := Processor.fields_of_bare x.takeInput_bare
  constructor
  · intro e he
    rw [step_eq_iff.mpr (.refused hr hp (Prod.ext he rfl)), hpos]
  · intro w dest address hw hd ht
    have hplan : x.plan = .ok (.request address (x.pos + 2 : Nat)) :=
      Processor.plan_eq_ok_iff.mpr ⟨_, hd, Processor.planFor_eq_ok_iff.mpr (.request ht)⟩
    refine ⟨_, x.store.stored_set address w, ?_⟩
    rw [step_of_acts hr (.read hplan (Prod.ext hw rfl)), ← hstore]
    rfl

theorem consults (x : Machine π) : x.Consults where
  starved_iff := by
    rw [starved_iff_inputTarget?]
    simp only [Processor.inputTarget?_eq_some_iff_decode]
    grind
  asksConsole_iff := asksConsole_iff_starved
  produced s h hs := by
    have hr := receives_of_starved h
    rwa [takeInput_of_producer (Machine.starved_iff.mp h).2.1 hs] at hr
  typed h := by
    obtain ⟨hst, hs⟩ := asksConsole_iff_starved.mp h
    have hr := receives_of_starved hst
    rwa [takeInput_of_console (Machine.starved_iff.mp hst).2.1 hs] at hr
  prompted := by
    rw [x.step_events.2, Event.onConsole]
    split
    · obtain ⟨answer, unread, ha⟩ := x.console.ask_eq
      have hc : x.console.ask = _ := ha x.console.printed
      rw [hc]
    · exact String.append_empty.symm

end

/-- A driver leads a machine along a course of steps and edits, and on that course no producer comes
but those that it attaches. Each step that reads an input while none is queued asks the producer
once, and keeps what is left of it, whatever the answer. Nothing else asks it. -/
theorem producer_consulted (m : Machine π) :
    (∀ requests answers taken n, Driven m requests answers taken n → ∃ es, Course m es n ∧
      es.filterMap Event.attached? = requests.filterMap Request.attached? ∧
      ∀ x, .step x ∈ es ↔ Visits x m requests) ∧
    (∀ requests x, Visits x m requests → ∃ es, Course m es x ∧
      es.filterMap Event.attached? <+: requests.filterMap Request.attached?) ∧
    (∀ es n, Course m es n → n.producer = es.foldl Event.onProducer m.producer ∧
      n.console = es.foldl Event.onConsole m.console) ∧
    (∀ es n, Course m es n → es.filterMap Event.attached? = [] →
      n.producer = m.producer.map fun s ↦
        (es.filterMap Event.question?).foldl (fun s p ↦ (Producer.answer s p).2) s) ∧
    ∀ x : Machine π, x.Consults := by
  refine ⟨fun requests answers taken n ↦ Driven.course, fun requests x ↦ Visits.course,
    fun es n ↦ Course.sources_eq, fun es n hc ha ↦ ?_, consults⟩
  rw [hc.sources_eq.1, foldl_onProducer ha]

/-- A program that puts out two words which it reads, of which the first is queued. -/
def relay : Machine Script where
  store := .ofList [3, 0, 4, 0, 3, 0, 4, 0, 99]
  inputs := [10]
  producer := some (.answers [20, 30])

theorem producer_consulted_of_relay : ∃ n es, relay.run? 5 = some (.ok [10, 20], n) ∧
    Course relay es n ∧ n.producer = some (.answers [30]) ∧
      n.producer = some ((es.filterMap Event.question?).foldl
        (fun s p ↦ (Producer.answer s p).2) (.answers [20, 30])) := by
  obtain ⟨hdriven, -, -, hasked, -⟩ := producer_consulted relay
  obtain ⟨n, hn, hs⟩ : ∃ n, relay.run? 5 = some (.ok [10, 20], n) ∧
    n.producer = some (.answers [30]) := ⟨_, rfl, rfl⟩
  have hd : Driven relay [.call .run] [.ok (.outputs [10, 20])] [] n :=
    .cons 5 (by rw [Request.perform?, Call.perform?, hn]; rfl) (.nil n)
  obtain ⟨es, hc, ha, -⟩ := hdriven _ _ _ n hd
  exact ⟨n, es, hn, hc, hs, hasked es n hc ha⟩

end Machine

end Intcode
