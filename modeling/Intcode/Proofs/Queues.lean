import Intcode.Proofs.Step

namespace Intcode

section
variable {π : Type} [Producer π]

/-- The states that a producer gets into as it is asked. -/
inductive Producer.Reaches : π → π → Prop
  | refl (s : π) : Reaches s s
  | ask {s t : π} (p : Processor) : Reaches s t → Reaches s (answer t p).2

theorem Producer.Reaches.trans {s t u : π} (h : Reaches s t) (h' : Reaches t u) : Reaches s u := by
  induction h' with
  | refl => exact h
  | ask p _ ih => exact .ask p ih

/-- However often it is asked, the producer does not look at the outputs. -/
def Producer.IgnoresOutputs (s : π) : Prop :=
  ∀ t, Reaches s t → ∀ p outputs, answer t { p with outputs } = answer t p

theorem Producer.IgnoresOutputs.of_reaches {s t : π} (h : IgnoresOutputs s) (hr : Reaches s t) :
    IgnoresOutputs t := fun u hu ↦ h u (hr.trans hu)

end

namespace Machine

variable {π : Type}

/-- The machine with `vs` put back in front of its outputs. -/
def prepend (vs : List Word) (m : Machine π) : Machine π := { m with outputs := vs ++ m.outputs }

theorem prepend_prepend (us vs : List Word) (m : Machine π) :
    prepend us (prepend vs m) = prepend (us ++ vs) m := by
  simp only [prepend, List.append_assoc]

theorem prepend_of_pending? {m m' : Machine π} {v : Word} (h : m.pending? = some (.ok v, m')) :
    prepend [v] m' = m := by
  unfold pending? at h
  split at h
  · cases h
  · rename_i ho _
    cases h
    rw [prepend, List.singleton_append, ← ho]
  · cases h

theorem apply_feed (m : Machine π) (effect : Effect) (ws : List Word) :
    (m.feed ws).apply effect = (m.apply effect).feed ws := by cases effect <;> rfl

theorem apply_prepend (m : Machine π) (effect : Effect) (vs : List Word) :
    (prepend vs m).apply effect = prepend vs (m.apply effect) := by
  cases effect with
  | emit v => simp only [apply, prepend, Processor.apply, List.append_assoc]
  | none | write | rebase => rfl

/-- Whether the next step reads an input while none is queued. -/
def starved (m : Machine π) : Bool :=
  match m.status, m.inputs, m.plan with
  | .running, [], .ok (.request _ _) => true
  | _, _, _ => false

theorem starved_iff {m : Machine π} : m.starved ↔
    m.status = .running ∧ m.inputs = [] ∧ ∃ address next, m.plan = .ok (.request address next) := by
  unfold starved
  split <;> simp_all

theorem exists_queued {m : Machine π} {address : Nat} {next : Int} (h : ¬m.starved)
    (hr : m.status = .running) (hp : m.plan = .ok (.request address next)) :
    ∃ v vs, m.inputs = v :: vs :=
  List.exists_cons_of_ne_nil fun hi ↦ h (starved_iff.mpr ⟨hr, hi, address, next, hp⟩)

variable [Producer π]

theorem takeInput_feed {m : Machine π} {v : Word} {vs : List Word} (hi : m.inputs = v :: vs)
    (ws : List Word) : (m.feed ws).takeInput = (m.takeInput.1, m.takeInput.2.feed ws) := by
  have hf : (m.feed ws).inputs = v :: (vs ++ ws) := by rw [feed, hi]; rfl
  rw [takeInput_of_queued hi, takeInput_of_queued hf]
  rfl

/-- A change to a machine that an instruction does not see, unless it reads an input, and does not
undo. -/
structure Overlay (f : Machine π → Machine π) : Prop where
  plan (m : Machine π) : (f m).plan = m.plan
  status (m : Machine π) : (f m).status = m.status
  pos (m : Machine π) : (f m).pos = m.pos
  size (m : Machine π) : (f m).store.size = m.store.size
  apply (m : Machine π) (effect : Effect) : (f m).apply effect = f (m.apply effect)
  moved (m : Machine π) (pos : Nat) : { f m with pos } = f { m with pos }
  left (m : Machine π) (status : Status) : { f m with status } = f { m with status }

namespace Overlay

variable {f : Machine π → Machine π} {m m' : Machine π} (hf : Overlay f)
  (ht : m.status = .running → ∀ address next, m.plan = .ok (.request address next) →
    (f m).takeInput = (m.takeInput.1, f m.takeInput.2))
include hf ht

theorem acts {next : Int} (hr : m.status = .running) (ha : Acts m m' next) :
    Acts (f m) (f m') next := by
  cases ha with
  | act hp =>
    rw [← hf.apply]
    exact .act ((hf.plan m).trans hp)
  | @read _ address _ next hp hi =>
    rw [← hf.apply]
    exact .read ((hf.plan m).trans hp) (by rw [ht hr address next hp, hi])

/-- If the change makes no difference to the input that is read, it makes none to the step. -/
theorem step : (f m).step = (m.step.1, f m.step.2) := by
  rcases hs : m.step with ⟨answer, n⟩
  have hplan := hf.plan m
  have hstatus := hf.status m
  cases step_eq_iff.mp hs with
  | rest hr => exact step_of_halted (hstatus.trans hr)
  | fault hr => exact step_of_failed (hstatus.trans hr)
  | stuck hr hp => rw [step_eq_iff.mpr (.stuck (hstatus.trans hr) (hplan.trans hp)), hf.left]
  | halt hr hp => rw [step_eq_iff.mpr (.halt (hstatus.trans hr) (hplan.trans hp)), hf.left]
  | @refused m' address next e hr hp hi =>
    have hi' : (f m).takeInput = (.error e, f m') := by rw [ht hr address next hp, hi]
    rw [step_eq_iff.mpr (.refused (hstatus.trans hr) (hplan.trans hp) hi'), hf.left, hf.pos]
  | @move m' next hr ha hn =>
    rw [← hf.size] at hn
    rw [step_eq_iff.mpr (.move (hstatus.trans hr) (hf.acts ht hr ha) hn), hf.moved]
  | @leave m' next hr ha hn =>
    rw [← hf.size] at hn
    rw [step_eq_iff.mpr (.leave (hstatus.trans hr) (hf.acts ht hr ha) hn), hf.left, hf.pos]

end Overlay

omit [Producer π] in
theorem overlay_feed (ws : List Word) : Overlay fun m : Machine π ↦ m.feed ws where
  plan _ := rfl
  status _ := rfl
  pos _ := rfl
  size _ := rfl
  apply m effect := m.apply_feed effect ws
  moved _ _ := rfl
  left _ _ := rfl

/-- A machine that does not wait for input takes the same step with more of it queued. -/
theorem step_feed {m : Machine π} (h : ¬m.starved) (ws : List Word) :
    (m.feed ws).step = (m.step.1, m.step.2.feed ws) := by
  refine (overlay_feed ws).step fun hr address next hp ↦ ?_
  obtain ⟨v, vs, hi⟩ := exists_queued h hr hp
  exact takeInput_feed hi ws

def IgnoresOutputs (m : Machine π) : Prop := ∀ s ∈ m.producer, Producer.IgnoresOutputs s

theorem takeInput_prepend {m : Machine π} (h : m.IgnoresOutputs) (vs : List Word) :
    (prepend vs m).takeInput = (m.takeInput.1, prepend vs m.takeInput.2) := by
  cases hi : m.inputs with
  | cons w ws => rw [takeInput_of_queued hi, takeInput_of_queued (m := prepend vs m) hi]; rfl
  | nil =>
    cases hs : m.producer with
    | none =>
      rw [takeInput_of_console hi hs, takeInput_of_console (m := prepend vs m) hi hs]; rfl
    | some s =>
      have ha : Producer.answer s (prepend vs m).toProcessor = Producer.answer s m.toProcessor :=
        h s hs s (.refl s) _ _
      rw [takeInput_of_producer hi hs, takeInput_of_producer (m := prepend vs m) hi hs, ha]
      rfl

omit [Producer π] in
theorem overlay_prepend (vs : List Word) : Overlay (prepend (π := π) vs) where
  plan _ := rfl
  status _ := rfl
  pos _ := rfl
  size _ := rfl
  apply m effect := m.apply_prepend effect vs
  moved _ _ := rfl
  left _ _ := rfl

theorem step_prepend {m : Machine π} (h : m.IgnoresOutputs) (vs : List Word) :
    (prepend vs m).step = (m.step.1, prepend vs m.step.2) :=
  (overlay_prepend vs).step fun _ _ _ _ ↦ takeInput_prepend h vs

theorem takeInput_producer {m m' : Machine π} {answer : Except Failure Word}
    (ht : m.takeInput = (answer, m')) :
    ∀ t ∈ m'.producer, ∃ s ∈ m.producer, Producer.Reaches s t := by
  intro t hp
  cases hi : m.inputs with
  | cons w ws => rw [takeInput_of_queued hi] at ht; cases ht; exact ⟨t, hp, .refl t⟩
  | nil =>
    cases hs : m.producer with
    | none => rw [takeInput_of_console hi hs] at ht; cases ht; cases hs.symm.trans hp
    | some s =>
      rw [takeInput_of_producer hi hs] at ht
      cases ht
      cases hp
      exact ⟨s, rfl, .ask _ (.refl s)⟩

/-- A step asks the producer at most, and never replaces it. -/
theorem step_producer {m m' : Machine π} {answer : Except Failure Bool} (hs : m.step = (answer, m')) :
    ∀ t ∈ m'.producer, ∃ s ∈ m.producer, Producer.Reaches s t := by
  intro t hp
  have hacts {n : Machine π} {next : Int} (ha : Acts m n next) (hn : t ∈ n.producer) :
      ∃ s ∈ m.producer, Producer.Reaches s t := by
    cases ha with
    | act => exact ⟨t, hn, .refl t⟩
    | read _ ht => exact takeInput_producer ht t hn
  cases step_eq_iff.mp hs with
  | rest | fault | stuck | halt => exact ⟨t, hp, .refl t⟩
  | refused hr _ ht => exact takeInput_producer ht t hp
  | move hr ha | leave hr ha => exact hacts ha hp

theorem IgnoresOutputs.step {m m' : Machine π} {answer : Except Failure Bool}
    (h : m.IgnoresOutputs) (hs : m.step = (answer, m')) : m'.IgnoresOutputs := by
  intro t ht
  obtain ⟨s, hp, hr⟩ := step_producer hs t ht
  exact (h s hp).of_reaches hr

end Machine

end Intcode
