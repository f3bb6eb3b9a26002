import Intcode.Proofs.Decode
import Intcode.Proofs.Step

namespace Intcode

/-- A computation whose failures are all of this sort. -/
def FailsAs {α : Type} (P : Failure → Prop) (x : Except Failure α) : Prop :=
  ∀ e, x = .error e → P e

namespace FailsAs

variable {α β : Type} {P Q : Failure → Prop} {x : Except Failure α}

theorem ok (a : α) : FailsAs P (.ok a) := nofun

theorem error {e : Failure} (h : P e) : FailsAs P (.error e : Except Failure α) := by
  intro e' he
  cases he
  exact h

theorem bind {k : α → Except Failure β} (hx : FailsAs P x) (hk : ∀ a, FailsAs P (k a)) :
    FailsAs P (x >>= k) := by
  intro e he
  cases x with
  | error e' => cases he; exact hx e rfl
  | ok a => exact hk a e he

theorem mapError {f : Failure → Failure} (hx : FailsAs P x) (hf : ∀ e, P e → Q (f e)) :
    FailsAs Q (x.mapError f) := by
  intro e he
  cases x with
  | error e' => cases he; exact hf e' (hx e' rfl)
  | ok a => cases he

end FailsAs

/-- A computation that does not fail in the way of a machine that had failed before. -/
def NeverFaults {α : Type} (x : Except Failure α) : Prop := ∀ e, x = .error e → e.kind ≠ .fault

namespace NeverFaults

variable {α β : Type} {x : Except Failure α}

theorem error {e : Failure} (h : e.kind ≠ .fault) : NeverFaults (.error e : Except Failure α) :=
  FailsAs.error h

theorem bind {k : α → Except Failure β} (hx : NeverFaults x) (hk : ∀ a, NeverFaults (k a)) :
    NeverFaults (x >>= k) := FailsAs.bind hx hk

theorem locate (h : NeverFaults x) (pos : Nat) :
    NeverFaults (x.mapError (Failure.locate · pos)) := FailsAs.mapError h fun _ hk ↦ hk

end NeverFaults

namespace Instruction

theorem operandAt_fails (s : Store) (pos k : Nat) :
    FailsAs (fun e ↦ e.kind = .decode ∧ e.address = none) (operandAt s pos k) := by
  refine .bind ?_ fun mode ↦ .ok _
  unfold Mode.ofWord
  split
  · exact .ok _
  · exact .error ⟨rfl, rfl⟩

theorem decode_fails (s : Store) (pos : Nat) :
    FailsAs (fun e ↦ e.kind = .decode ∧ e.address = some pos) (decode s pos) := by
  refine FailsAs.mapError (P := fun e ↦ e.kind = .decode ∧ e.address = none) (.bind ?_ fun c ↦ ?_)
    fun e he ↦ ⟨he.1, by rw [Failure.locate, he.2]; rfl⟩
  · unfold Opcode.ofWord
    split
    · exact .ok _
    · exact .error ⟨rfl, rfl⟩
  · have ho := operandAt_fails s pos
    split
    · cases c with
      | binary op => exact .bind (ho 0) fun _ ↦ .bind (ho 1) fun _ ↦ .bind (ho 2) fun _ ↦ .ok _
      | jumpIf on => exact .bind (ho 0) fun _ ↦ .bind (ho 1) fun _ ↦ .ok _
      | input | output | adjustBase => exact .bind (ho 0) fun _ ↦ .ok _
      | halt => exact .ok _
    · exact .error ⟨rfl, rfl⟩

theorem neverFaults_decode (s : Store) (pos : Nat) : NeverFaults (decode s pos) := by
  intro e he hk
  cases hk.symm.trans (decode_fails s pos e he).1

end Instruction

/-- A failure of an instruction that is there but has an operand or a result that cannot be. -/
def Failure.OfExecution (e : Failure) : Prop :=
  e.kind = .writeTarget ∨ e.kind = .address ∨ e.kind = .overflow

namespace Operand

variable (o : Operand) (s : Store) (base : Word)

theorem pointer_fails : FailsAs Failure.OfExecution (o.pointer base) := by
  unfold pointer
  split
  · exact .ok _
  · exact .error (.inl rfl)
  · split
    · exact .ok _
    · exact .error (.inr (.inl rfl))

theorem address_fails (w : Word) : FailsAs Failure.OfExecution (Store.address w) := by
  unfold Store.address
  split
  · exact .ok _
  · exact .error (.inr (.inl rfl))

theorem fails_of_target : FailsAs Failure.OfExecution (o.target base) :=
  .bind (o.pointer_fails base) address_fails

theorem fails_of_value : FailsAs Failure.OfExecution (o.value s base) := by
  unfold value
  split
  · exact .ok _
  · refine .bind (o.pointer_fails base) fun w ↦ ?_
    exact .bind (address_fails w) fun a ↦ .ok _

end Operand

theorem Word.exact_fails (z : Int) : FailsAs Failure.OfExecution (Word.exact z) := by
  unfold Word.exact
  split
  · exact .ok _
  · exact .error (.inr (.inr rfl))

namespace Processor

variable {p : Processor} {plan : Plan}

theorem planFor_fails (p : Processor) (i : Instruction) :
    FailsAs Failure.OfExecution (p.planFor i) := by
  have hv (o : Operand) := o.fails_of_value p.store p.base
  have ht (o : Operand) := o.fails_of_target p.base
  cases i with
  | binary op left right dest =>
    refine .bind (hv left) fun _ ↦ .bind (hv right) fun _ ↦ ?_
    exact .bind (Word.exact_fails _) fun _ ↦ .bind (ht dest) fun _ ↦ .ok _
  | input dest => exact .bind (ht dest) fun _ ↦ .ok _
  | output source => exact .bind (hv source) fun _ ↦ .ok _
  | jumpIf on test dest =>
    refine .bind (hv test) fun x ↦ ?_
    split
    · exact .bind (hv dest) fun _ ↦ .ok _
    · exact .ok _
  | adjustBase offset =>
    exact .bind (hv offset) fun _ ↦ .bind (Word.exact_fails _) fun _ ↦ .ok _
  | halt => exact .ok _

theorem neverFaults_planFor (p : Processor) (i : Instruction) : NeverFaults (p.planFor i) := by
  intro e he hk
  rcases p.planFor_fails i e he with h | h | h <;> cases hk.symm.trans h

/-- No instruction fails by itself in the way of a machine that had failed before. -/
theorem neverFaults_plan (p : Processor) : NeverFaults p.plan := by
  refine NeverFaults.locate ?_ p.pos
  split
  · exact .bind (Instruction.neverFaults_decode p.store p.pos) p.neverFaults_planFor
  · exact .error nofun

theorem pos_lt_of_decode {i : Instruction} (h : Instruction.decode p.store p.pos = .ok i) :
    p.pos < p.store.size := by
  obtain ⟨-, hw, -⟩ := Instruction.decode_eq_ok_iff.mp h
  have := i.width_pos
  omega

theorem plan_eq_ok_iff : p.plan = .ok plan ↔
    ∃ i, Instruction.decode p.store p.pos = .ok i ∧ p.planFor i = .ok plan := by
  rw [Processor.plan, mapError_eq_ok_iff]
  constructor
  · intro h
    split at h
    · exact bind_eq_ok_iff.mp h
    · cases h
  · intro h
    obtain ⟨i, hd, hf⟩ := h
    rw [if_pos (pos_lt_of_decode hd)]
    exact bind_eq_ok_iff.mpr ⟨i, hd, hf⟩

/-- What an instruction comes to at the counter when its operands are there. -/
inductive Plans (p : Processor) : Instruction → Plan → Prop
  | write {op : BinaryOp} {left right dest : Operand} {x y z : Word} {address : Nat}
      (hx : left.value p.store p.base = .ok x) (hy : right.value p.store p.base = .ok y)
      (hz : Word.exact (op.exact x.toInt y.toInt) = .ok z) (ha : dest.target p.base = .ok address) :
      Plans p (.binary op left right dest) (.act (.write address z) (p.pos + 4 : Nat))
  | request {dest : Operand} {address : Nat} (ha : dest.target p.base = .ok address) :
      Plans p (.input dest) (.request address (p.pos + 2 : Nat))
  | emit {source : Operand} {x : Word} (hx : source.value p.store p.base = .ok x) :
      Plans p (.output source) (.act (.emit x) (p.pos + 2 : Nat))
  | jump {on : Bool} {test dest : Operand} {x y : Word} (hx : test.value p.store p.base = .ok x)
      (ht : (x != 0) = on) (hy : dest.value p.store p.base = .ok y) :
      Plans p (.jumpIf on test dest) (.act .none y.toInt)
  | pass {on : Bool} {test dest : Operand} {x : Word} (hx : test.value p.store p.base = .ok x)
      (ht : (x != 0) ≠ on) : Plans p (.jumpIf on test dest) (.act .none (p.pos + 3 : Nat))
  | rebase {offset : Operand} {x base : Word} (hx : offset.value p.store p.base = .ok x)
      (hb : Word.exact (p.base.toInt + x.toInt) = .ok base) :
      Plans p (.adjustBase offset) (.act (.rebase base) (p.pos + 2 : Nat))
  | halt : Plans p .halt .halt

theorem planFor_eq_ok_iff {i : Instruction} : p.planFor i = .ok plan ↔ Plans p i plan := by
  constructor
  · intro h
    cases i with
    | jumpIf on test dest =>
      simp only [planFor, bind_eq_ok_iff] at h
      obtain ⟨x, hx, h⟩ := h
      split at h
      · rename_i ht
        obtain ⟨y, hy, h⟩ := bind_eq_ok_iff.mp h
        cases h
        exact .jump hx ht hy
      · rename_i ht
        cases h
        exact .pass hx ht
    | halt => cases h; exact .halt
    | binary op left right dest =>
      simp only [planFor, bind_eq_ok_iff, pure, Except.pure] at h
      obtain ⟨x, hx, y, hy, z, hz, address, ha, h⟩ := h
      cases h
      exact .write hx hy hz ha
    | input dest =>
      simp only [planFor, bind_eq_ok_iff, pure, Except.pure] at h
      obtain ⟨address, ha, h⟩ := h
      cases h
      exact .request ha
    | output source =>
      simp only [planFor, bind_eq_ok_iff, pure, Except.pure] at h
      obtain ⟨x, hx, h⟩ := h
      cases h
      exact .emit hx
    | adjustBase offset =>
      simp only [planFor, bind_eq_ok_iff, pure, Except.pure] at h
      obtain ⟨x, hx, base, hb, h⟩ := h
      cases h
      exact .rebase hx hb
  · intro h
    cases h with
    | write hx hy hz ha => rw [planFor, hx, hy]; simp only [bind, Except.bind]; rw [hz, ha]; rfl
    | request ha => rw [planFor, ha]; rfl
    | emit hx => rw [planFor, hx]; rfl
    | jump hx ht hy => rw [planFor, hx]; simp only [bind, Except.bind]; rw [if_pos ht, hy]; rfl
    | pass hx ht => rw [planFor, hx]; simp only [bind, Except.bind]; rw [if_neg ht]; rfl
    | rebase hx hb => rw [planFor, hx]; simp only [bind, Except.bind]; rw [hb]; rfl
    | halt => rfl

/-- What the next step puts out: the operand of an output instruction. -/
def emission (p : Processor) : List Word :=
  match p.status, Instruction.decode p.store p.pos with
  | .running, .ok (.output source) => (source.value p.store p.base).toOption.toList
  | _, _ => []

/-- The address at which the next step stores an input, if it reads one. -/
def inputTarget? (p : Processor) : Option Nat :=
  match p.status, Instruction.decode p.store p.pos with
  | .running, .ok (.input dest) => (dest.target p.base).toOption
  | _, _ => none

end Processor

def Plan.emitted : Plan → List Word
  | .act (.emit v) _ => [v]
  | _ => []

def Plan.target? : Plan → Option Nat
  | .request address _ => some address
  | _ => none

namespace Processor

variable {p : Processor} {plan : Plan} {i : Instruction}

theorem Plans.reads_and_emits (h : p.status = .running)
    (hd : Instruction.decode p.store p.pos = .ok i) (hf : Plans p i plan) :
    p.emission = plan.emitted ∧ p.inputTarget? = plan.target? := by
  unfold emission inputTarget?
  rw [h, hd]
  cases hf with
  | emit hx => exact ⟨by simp only [hx]; rfl, rfl⟩
  | request ha => exact ⟨rfl, by simp only [ha]; rfl⟩
  | write | jump | pass | rebase | halt => exact ⟨rfl, rfl⟩

theorem emission_of_plan (h : p.status = .running) (hp : p.plan = .ok plan) :
    p.emission = plan.emitted := by
  obtain ⟨i, hd, hf⟩ := plan_eq_ok_iff.mp hp
  exact ((planFor_eq_ok_iff.mp hf).reads_and_emits h hd).1

theorem inputTarget?_of_plan (h : p.status = .running) (hp : p.plan = .ok plan) :
    p.inputTarget? = plan.target? := by
  obtain ⟨i, hd, hf⟩ := plan_eq_ok_iff.mp hp
  exact ((planFor_eq_ok_iff.mp hf).reads_and_emits h hd).2

theorem emission_of_stuck {e : Failure} (hp : p.plan = .error e) : p.emission = [] := by
  unfold emission
  split
  · rename_i source _ hd
    cases hv : source.value p.store p.base with
    | error e => rfl
    | ok v =>
      rw [plan_eq_ok_iff.mpr ⟨_, hd, planFor_eq_ok_iff.mpr (.emit hv)⟩] at hp
      cases hp
  · rfl

theorem inputTarget?_of_stuck {e : Failure} (hp : p.plan = .error e) : p.inputTarget? = none := by
  unfold inputTarget?
  split
  · rename_i dest _ hd
    cases ht : dest.target p.base with
    | error e => rfl
    | ok a =>
      rw [plan_eq_ok_iff.mpr ⟨_, hd, planFor_eq_ok_iff.mpr (.request ht)⟩] at hp
      cases hp
  · rfl

theorem emission_of_not_running (h : p.status ≠ .running) : p.emission = [] := by
  unfold emission
  split
  · contradiction
  · rfl

theorem inputTarget?_of_not_running (h : p.status ≠ .running) : p.inputTarget? = none := by
  unfold inputTarget?
  split
  · contradiction
  · rfl

theorem inputTarget?_eq_some_iff {address : Nat} : p.inputTarget? = some address ↔
    p.status = .running ∧ ∃ next, p.plan = .ok (.request address next) := by
  constructor
  · intro h
    have hr : p.status = .running := by
      by_contra hn
      rw [inputTarget?_of_not_running hn] at h
      cases h
    cases hp : p.plan with
    | error e =>
      rw [inputTarget?_of_stuck hp] at h
      cases h
    | ok plan =>
      rw [inputTarget?_of_plan hr hp] at h
      cases plan with
      | request a next => cases h; exact ⟨hr, next, rfl⟩
      | halt | act => cases h
  · intro h
    obtain ⟨hr, next, hp⟩ := h
    rw [inputTarget?_of_plan hr hp]
    rfl

/-- A halt is an instruction word inside the image that ends in 99. -/
theorem plan_eq_halt_iff : p.plan = .ok .halt ↔
    p.pos < p.store.size ∧ (p.store.get p.pos).toInt % 100 = 99 := by
  constructor
  · intro hp
    obtain ⟨i, hd, hf⟩ := plan_eq_ok_iff.mp hp
    cases planFor_eq_ok_iff.mp hf
    obtain ⟨hc, -, -⟩ := Instruction.decode_eq_ok_iff.mp hd
    refine ⟨pos_lt_of_decode hd, ?_⟩
    unfold Opcode.ofNumber? at hc
    split at hc <;> cases hc
    assumption
  · intro h
    obtain ⟨hs, hw⟩ := h
    have hd : Instruction.decode p.store p.pos = .ok .halt := by
      refine Instruction.decode_eq_ok_iff.mpr ⟨by rw [hw]; rfl, hs, fun k o ho ↦ ?_⟩
      cases ho
    exact plan_eq_ok_iff.mpr ⟨.halt, hd, rfl⟩

end Processor

end Intcode
