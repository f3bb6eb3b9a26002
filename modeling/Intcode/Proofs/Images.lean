import Intcode.Machine.Script
import Intcode.Proofs.Drain
import Intcode.Proofs.Lifecycle
import Mathlib.Data.List.GetD

namespace Intcode

/-- The two stores read the same, but more cells may be in the image of the second. -/
structure Store.Alike (s t : Store) : Prop where
  get : ∀ a, s.get a = t.get a
  size_le : s.size ≤ t.size

namespace Store

variable {s t : Store}

theorem get_ofList (ws : List Word) (a : Nat) : (ofList ws).get a = ws.getD a 0 := by
  unfold get ofList
  split
  · rename_i h
    rw [List.size_toArray] at h
    rw [List.getD_eq_getElem ws 0 h, List.getElem_toArray]
  · rename_i h
    rw [List.size_toArray] at h
    rw [List.getD_eq_default ws 0 (Nat.le_of_not_lt h), Std.ExtTreeMap.getD_empty]

theorem size_ofList (ws : List Word) : (ofList ws).size = ws.length := List.size_toArray

/-- Zeros at the end of an image are the zeros that would be read there without them. -/
theorem alike_append_zeros (ws : List Word) (k : Nat) :
    (ofList ws).Alike (ofList (ws ++ List.replicate k 0)) where
  get a := by
    rw [get_ofList, get_ofList]
    by_cases h : a < ws.length
    · rw [List.getD_append _ _ _ _ h]
    · have ha := Nat.le_of_not_lt h
      rw [List.getD_append_right _ _ _ _ ha, List.getD_eq_default _ _ ha]
      by_cases hk : a - ws.length < k
      · rw [List.getD_replicate _ hk]
      · rw [List.getD_eq_default]
        simpa using hk
  size_le := by
    rw [size_ofList, size_ofList, List.length_append]
    exact Nat.le_add_right _ _

theorem Alike.set (h : s.Alike t) (a : Nat) (v : Word) : (s.set a v).Alike (t.set a v) where
  get b := by rw [get_set, get_set, h.get]
  size_le := by rw [size_set, size_set]; exact h.size_le

theorem Alike.read_eq (h : s.Alike t) : s.read = t.read := by
  unfold read
  rw [funext h.get]

end Store

namespace Instruction

variable {s t : Store}

theorem holds_of_alike (h : s.Alike t) {pos k : Nat} {o : Operand} (ho : Holds s pos k o) :
    Holds t pos k o := by
  unfold Holds at ho ⊢
  rwa [← h.get, ← h.get]

/-- An instruction that is inside the smaller image is also inside the larger one. -/
theorem decode_of_alike (h : s.Alike t) {pos : Nat} {i : Instruction} (hd : decode s pos = .ok i) :
    decode t pos = .ok i := by
  obtain ⟨hc, hw, ho⟩ := decode_eq_ok_iff.mp hd
  rw [h.get] at hc
  exact decode_eq_ok_iff.mpr
    ⟨hc, hw.trans h.size_le, fun k o hk ↦ holds_of_alike h (ho k o hk)⟩

theorem operandAt_congr (h : s.Alike t) (pos k : Nat) : operandAt s pos k = operandAt t pos k := by
  rw [operandAt, operandAt, h.get, h.get]

theorem decode_congr (h : s.Alike t) (hs : s.size = t.size) (pos : Nat) :
    decode s pos = decode t pos := by
  have hw (c : Opcode) : withOpcode s pos c = withOpcode t pos c := by
    cases c <;> simp only [withOpcode, operandAt_congr h]
  simp only [decode, h.get, hs, hw]

end Instruction

namespace Processor

variable {p : Processor} {t : Store}

def withStore (p : Processor) (t : Store) : Processor := { p with store := t }

theorem planFor_withStore (h : p.store.Alike t) (i : Instruction) :
    (p.withStore t).planFor i = p.planFor i := by
  have hv (o : Operand) : o.value t p.base = o.value p.store p.base := by
    rw [Operand.value, Operand.value, h.read_eq]
  cases i <;> simp only [planFor, withStore, hv]

theorem plan_withStore_of_ok (h : p.store.Alike t) {plan : Plan} (hp : p.plan = .ok plan) :
    (p.withStore t).plan = .ok plan := by
  obtain ⟨i, hd, hf⟩ := plan_eq_ok_iff.mp hp
  exact plan_eq_ok_iff.mpr
    ⟨i, Instruction.decode_of_alike h hd, (planFor_withStore h i).trans hf⟩

theorem plan_withStore (h : p.store.Alike t) (hs : p.store.size = t.size) :
    (p.withStore t).plan = p.plan := by
  have hd : Instruction.decode t p.pos = Instruction.decode p.store p.pos :=
    (Instruction.decode_congr h hs p.pos).symm
  have hf : (p.withStore t).planFor = p.planFor := funext (planFor_withStore h)
  unfold plan
  rw [hf]
  simp only [withStore, hd, hs]

/-- A producer sees the same in two states with the same cells, counter and base, and with as many
inputs queued. -/
structure SameSight (p q : Processor) : Prop where
  read : ∀ w, p.store.read w = q.store.read w
  pos : p.pos = q.pos
  base : p.base = q.base
  pending : p.inputs.length = q.inputs.length

end Processor

section
variable {π : Type} [Producer π]

/-- However often it is asked, the producer looks at nothing but cells, counter, base and the number
of inputs. -/
def Producer.LooksAtCells (s : π) : Prop :=
  ∀ t, Reaches s t → ∀ p q, Processor.SameSight p q → answer t p = answer t q

theorem Producer.LooksAtCells.of_reaches {s t : π} (h : LooksAtCells s) (hr : Reaches s t) :
    LooksAtCells t := fun u hu ↦ h u (hr.trans hu)

end

theorem Script.looksAtCells {s : Script} (h : s ≠ .dumpLength) : Producer.LooksAtCells s := by
  intro t ht p q hpq
  cases t with
  | dumpLength => exact absurd rfl (ne_dumpLength_of_reaches h ht)
  | answers vs => cases vs <;> rfl
  | cell a => simp only [Producer.answer, answer, hpq.read]
  | compare a b => simp only [Producer.answer, answer, hpq.read]
  | position => simp only [Producer.answer, answer, hpq.pos]
  | base => simp only [Producer.answer, answer, hpq.base]
  | refuse e => rfl

namespace Machine

variable {π : Type}

def withStore (m : Machine π) (t : Store) : Machine π := { m with store := t }

theorem apply_withStore {m : Machine π} {t : Store} (h : m.store.Alike t) (effect : Effect) :
    ∃ t', (m.withStore t).apply effect = (m.apply effect).withStore t' ∧
      (m.apply effect).store.Alike t' := by
  cases effect with
  | write a v => exact ⟨t.set a v, rfl, h.set a v⟩
  | none | emit | rebase => exact ⟨t, rfl, h⟩

variable [Producer π]

/-- Two machines that differ in how they keep their cells only. -/
structure Alike (m n : Machine π) : Prop where
  store : m.store.Alike n.store
  rest : n = m.withStore n.store
  looks : ∀ s ∈ m.producer, Producer.LooksAtCells s

variable {m m' n : Machine π} {t : Store} {next : Int} {answer : Except Failure Bool}

theorem takeInput_withStore (h : m.store.Alike t)
    (hl : ∀ s ∈ m.producer, Producer.LooksAtCells s) :
    (m.withStore t).takeInput = (m.takeInput.1, m.takeInput.2.withStore t) := by
  cases hi : m.inputs with
  | cons v vs => rw [takeInput_of_queued hi, takeInput_of_queued (m := m.withStore t) hi]; rfl
  | nil =>
    cases hs : m.producer with
    | none => rw [takeInput_of_console hi hs, takeInput_of_console (m := m.withStore t) hi hs]; rfl
    | some s =>
      have hsight : m.toProcessor.SameSight (m.withStore t).toProcessor :=
        ⟨fun w ↦ congrFun h.read_eq w, rfl, rfl, rfl⟩
      have ha := hl s hs s (.refl s) _ _ hsight
      rw [takeInput_of_producer hi hs, takeInput_of_producer (m := m.withStore t) hi hs, ha]
      rfl

theorem Acts.withStore (h : m.store.Alike t) (hl : ∀ s ∈ m.producer, Producer.LooksAtCells s)
    (ha : Acts m m' next) :
    ∃ t', Acts (m.withStore t) (m'.withStore t') next ∧ m'.store.Alike t' := by
  cases ha with
  | @act effect _ hp =>
    obtain ⟨t', he, ht⟩ := apply_withStore h effect
    exact ⟨t', he ▸ .act (Processor.plan_withStore_of_ok h hp), ht⟩
  | @read n address v _ hp hi =>
    have hn := congrArg Processor.store m.takeInput_toProcessor
    have hi' := takeInput_withStore h hl
    rw [hi] at hn hi'
    have hst : n.store.Alike t := by rwa [hn]
    obtain ⟨t', he, ht⟩ := apply_withStore hst (.write address v)
    exact ⟨t', he ▸ .read (Processor.plan_withStore_of_ok h hp) hi', ht⟩

/-- A step that does not fail is the same with a larger image, and with one that is as large so is
a step that fails. -/
theorem Step.withStore (h : m.store.Alike t) (hl : ∀ s ∈ m.producer, Producer.LooksAtCells s)
    (hs : Step m answer m') (hok : m.store.size = t.size ∨ ∃ b, answer = .ok b) :
    ∃ t', Step (m.withStore t) answer (m'.withStore t') ∧ m'.store.Alike t' := by
  have hplan {plan : Plan} (hp : m.plan = .ok plan) : (m.withStore t).plan = .ok plan :=
    Processor.plan_withStore_of_ok h hp
  have hsize {e : Failure}
      (hok : m.store.size = t.size ∨ ∃ b, (.error e : Except Failure Bool) = .ok b) :
      m.store.size = t.size := hok.resolve_right (by simp)
  cases hs with
  | rest hr => exact ⟨t, .rest hr, h⟩
  | fault hr => exact ⟨t, .fault hr, h⟩
  | stuck hr hp =>
    have hp' := (Processor.plan_withStore h (hsize hok)).trans hp
    exact ⟨t, .stuck (m := m.withStore t) hr hp', h⟩
  | halt hr hp => exact ⟨t, .halt (m := m.withStore t) hr (hplan hp), h⟩
  | @refused n address next e hr hp hi =>
    have hn := congrArg Processor.store m.takeInput_toProcessor
    have hi' := takeInput_withStore h hl
    rw [hi] at hn hi'
    have hst : n.store.Alike t := by rwa [hn]
    exact ⟨t, .refused (m := m.withStore t) hr (hplan hp) hi', hst⟩
  | @move n next hr ha hn =>
    obtain ⟨t', ha', ht⟩ := ha.withStore h hl
    have hle := ht.size_le
    have hn' : 0 ≤ next ∧ next < t'.size := by omega
    exact ⟨t', .move (m := m.withStore t) hr ha' hn', ht⟩
  | @leave n next hr ha hn =>
    obtain ⟨t', ha', ht⟩ := ha.withStore h hl
    have hf := ha.frame.1
    have hf' : t'.size = t.size := ha'.frame.1
    have hn' : ¬(0 ≤ next ∧ next < t'.size) := by
      rw [hf', ← hsize hok, ← hf]
      exact hn
    exact ⟨t', .leave (m := m.withStore t) hr ha' hn', ht⟩

theorem Alike.step (h : Alike m n) (hs : m.step = (answer, m'))
    (hok : m.store.size = n.store.size ∨ ∃ b, answer = .ok b) :
    ∃ n', n.step = (answer, n') ∧ Alike m' n' := by
  obtain ⟨t', hs', ht⟩ := (step_eq_iff.mp hs).withStore h.store h.looks hok
  rw [← h.rest, ← step_eq_iff] at hs'
  refine ⟨m'.withStore t', hs', ht, rfl, fun s hm ↦ ?_⟩
  obtain ⟨s₀, hs₀, hr⟩ := step_producer hs s hm
  exact (h.looks s₀ hs₀).of_reaches hr

theorem Alike.outputs_eq (h : Alike m n) : n.outputs = m.outputs := congrArg (·.outputs) h.rest

theorem Alike.run? {fuel : Nat} {vs : List Word} (h : Alike m n)
    (hr : m.run? fuel = some (.ok vs, m')) :
    ∃ n', n.run? fuel = some (.ok vs, n') ∧ Alike m' n' := by
  fun_induction Machine.run? fuel m generalizing n with
  | case1 => cases hr
  | case2 => cases hr
  | case3 m fuel m₁ hs =>
    cases hr
    obtain ⟨n', hs', h'⟩ := h.step hs (.inr ⟨_, rfl⟩)
    exact ⟨n', by rw [run?_of_halt hs', h'.outputs_eq], h'⟩
  | case4 m fuel m₁ hs ih =>
    obtain ⟨n₁, hs', h'⟩ := h.step hs (.inr ⟨_, rfl⟩)
    rw [run?_of_alive hs']
    exact ih h' hr

theorem Alike.after (h : Alike m n) (hsize : m.store.size = n.store.size) (k : Nat) :
    Alike (m.after k) (n.after k) ∧ (m.after k).store.size = (n.after k).store.size := by
  induction k with
  | zero => exact ⟨h, hsize⟩
  | succ k ih =>
    obtain ⟨hk, hsize⟩ := ih
    obtain ⟨n', hs, h'⟩ := hk.step rfl (.inl hsize)
    rw [after_succ, after_succ, hs]
    have hn := (n.after k).step_frame.1
    rw [hs] at hn
    exact ⟨h', (m.after k).step_frame.1.trans (hsize.trans hn.symm)⟩

/-- How the cells are kept makes no difference to a machine that does not fail, and so a program may
have zeros appended to it. With images of one length it makes none to a machine that fails either. -/
theorem images_agree (h : Alike m n) :
    (∀ b m', m.step = (.ok b, m') → ∃ n', n.step = (.ok b, n') ∧ Alike m' n') ∧
    (∀ fuel vs m', m.run? fuel = some (.ok vs, m') →
      ∃ n', n.run? fuel = some (.ok vs, n') ∧ Alike m' n') ∧
    (∀ ws k fuel vs m', (m.withStore (.ofList ws)).run? fuel = some (.ok vs, m') →
      ∃ n', (m.withStore (.ofList (ws ++ List.replicate k 0))).run? fuel = some (.ok vs, n') ∧
        Alike m' n') ∧
    (m.store.size = n.store.size → ∀ k, (m.after k).step.1 = (n.after k).step.1 ∧
      Alike (m.after k) (n.after k) ∧ (m.after k).store.size = (n.after k).store.size) := by
  refine ⟨fun b m' hs ↦ h.step hs (.inr ⟨b, rfl⟩), fun fuel vs m' hr ↦ h.run? hr,
    fun ws k fuel vs m' hr ↦ ?_, fun hsize k ↦ ?_⟩
  · have hp : Alike (m.withStore (.ofList ws))
        (m.withStore (.ofList (ws ++ List.replicate k 0))) :=
      ⟨Store.alike_append_zeros ws k, rfl, h.looks⟩
    exact hp.run? hr
  · obtain ⟨hk, hsize⟩ := h.after hsize k
    obtain ⟨answer, m', hs⟩ : ∃ answer m', (m.after k).step = (answer, m') := ⟨_, _, rfl⟩
    obtain ⟨n', hs', -⟩ := hk.step hs (.inl hsize)
    exact ⟨by rw [hs, hs'], hk, hsize⟩

/-- A program that stores an input past its image and puts it out, and after it a cell that was never
written. The producer answers with a cell of the program. -/
def echo (t : Store) : Machine Script where
  store := t
  producer := some (.cell 1)

def echoProgram : List Word := [3, 7, 4, 7, 4, 9, 99]

/-- In the one store cell 7 is past the image; in the other it is part of it, and a zero is kept. -/
theorem images_agree_of_echo :
    Alike (echo (.ofList echoProgram)) (echo ((Store.ofList (echoProgram ++ [0])).set 9 0)) ∧
      ∃ m' n', (echo (.ofList echoProgram)).run? 4 = some (.ok [7, 0], m') ∧
        (echo ((Store.ofList (echoProgram ++ [0])).set 9 0)).run? 4 = some (.ok [7, 0], n') ∧
        Alike m' n' := by
  have hp : (Store.ofList echoProgram).Alike (.ofList (echoProgram ++ [0])) :=
    Store.alike_append_zeros echoProgram 1
  have h : Alike (echo (.ofList echoProgram))
      (echo ((Store.ofList (echoProgram ++ [0])).set 9 0)) := by
    refine ⟨⟨fun a ↦ ?_, hp.size_le⟩, rfl, fun s hs ↦ ?_⟩
    · refine (hp.get a).trans ?_
      rw [echo, Store.get_set]
      split
      · rename_i ha
        subst ha
        rfl
      · rfl
    · cases hs
      exact Script.looksAtCells fun he ↦ by cases he
  obtain ⟨m', hr⟩ : ∃ m', (echo (.ofList echoProgram)).run? 4 = some (.ok [7, 0], m') := ⟨_, rfl⟩
  obtain ⟨n', hr', h'⟩ := (images_agree h).2.1 4 [7, 0] m' hr
  exact ⟨h, m', n', hr, hr', h'⟩

end Machine

end Intcode
