import Intcode.Machine.Script
import Intcode.Proofs.Inputs
import Intcode.Proofs.Supply
import Intcode.Proofs.Typing

namespace Intcode

/-- Asked again and again, whatever the state of the machine, the producer answers with `ws`. -/
def Producer.Serves {π : Type} [Producer π] : π → List Word → Prop
  | _, [] => True
  | s, w :: ws => ∀ p, (answer s p).1 = .ok w ∧ Serves (answer s p).2 ws

theorem Script.serves_answers (ws : List Word) : Producer.Serves (Script.answers ws) ws := by
  induction ws with
  | nil => trivial
  | cons w ws ih => exact fun p ↦ ⟨rfl, ih⟩

namespace Machine

variable {π : Type}

/-- The queue has the first of the words `ws`, and the rest of them are typed at the console. -/
def Keyed (ws : List Word) (m : Machine π) : Prop :=
  m.producer = none ∧ ∃ vs, Console.Typed vs m.console.unread ∧ ws = m.inputs ++ vs

variable [Producer π]

/-- The machines that the steps are taken from when a piece of input is queued before each. -/
def walk : List (List Word) → Machine π → List (Machine π)
  | [], _ => []
  | piece :: pieces, m => m.feed piece :: walk pieces (m.feed piece).step.2

/-- Those of them that read an input in their step. -/
def reading (pieces : List (List Word)) (m : Machine π) : List (Machine π) :=
  (m.walk pieces).filter (·.inputTarget?.isSome)

/-- The ways in which the words `ws` can get to a machine. -/
inductive Sourced (ws : List Word) (m : Machine π) (pieces : List (List Word)) : Prop
  | queued (hi : m.inputs = ws) (hno : ∀ piece ∈ pieces, piece = [])
  | fed (hp : m.inputs ++ pieces.flatten <+: ws) (hn : ∀ x ∈ m.walk pieces, ¬x.starved)
  | typed (hk : m.Keyed ws) (hno : ∀ piece ∈ pieces, piece = [])
  | produced {s : π} (hi : m.inputs = []) (hs : m.producer = some s) (hw : Producer.Serves s ws)
      (hno : ∀ piece ∈ pieces, piece = [])

/-- Two machines that differ in their inputs only, before a step and after it, and in that step give
the same answer. -/
def Agrees {π₁ π₂ : Type} [Producer π₁] [Producer π₂] (x : Machine π₁) (y : Machine π₂) : Prop :=
  x.bare = y.bare ∧ x.step.1 = y.step.1 ∧ x.step.2.bare = y.step.2.bare

/-- In its next step the machine reads an input, and afterwards the target reads as `w` and every
other cell as it did. -/
def Stores (x : Machine π) (w : Word) : Prop :=
  ∃ address, x.inputTarget? = some address ∧ x.store.Stored address w x.step.2.store

section
variable {m n : Machine π} {w : Word} {ws : List Word} {piece : List Word}
  {pieces : List (List Word)} {address : Nat}

omit [Producer π] in
theorem Keyed.of_supply (hs : SameSupply n m) (hk : m.Keyed ws) : n.Keyed ws := by
  obtain ⟨hp, vs, ht, hw⟩ := hk
  exact ⟨hs.producer.trans hp, vs, by rwa [hs.console], by rwa [hs.inputs]⟩

theorem Keyed.takeInput (hk : m.Keyed (w :: ws)) :
    m.takeInput.1 = .ok w ∧ m.takeInput.2.Keyed ws := by
  obtain ⟨hp, vs, ht, hw⟩ := hk
  cases hi : m.inputs with
  | cons v us =>
    rw [hi] at hw
    cases hw
    rw [takeInput_of_queued hi]
    exact ⟨rfl, hp, vs, ht, rfl⟩
  | nil =>
    rw [hi] at hw
    cases hw
    obtain ⟨ha, ht⟩ := Console.ask_of_typed ht
    rw [takeInput_of_console hi hp]
    exact ⟨ha, hp, ws, ht, by rw [hi]; rfl⟩

theorem Keyed.takeInput_of_done (hk : m.Keyed []) :
    m.takeInput.1 = .error .endOfInput ∧ m.takeInput.2.Keyed [] := by
  obtain ⟨hp, vs, ht, hw⟩ := hk
  obtain ⟨hi, rfl⟩ := List.append_eq_nil_iff.mp hw.symm
  obtain ⟨ha, ht⟩ := Console.ask_of_done ht
  rw [takeInput_of_console hi hp]
  exact ⟨ha, hp, [], ht, hw⟩

theorem Sourced.step_of_none (h : Sourced ws m (piece :: pieces))
    (ht : (m.feed piece).inputTarget? = none) : Sourced ws (m.feed piece).step.2 pieces := by
  have hs := step_supply_of_none ht
  cases h with
  | queued hi hno =>
    obtain ⟨rfl, hnone⟩ := List.forall_mem_cons.mp hno
    rw [feed_nil] at hs ⊢
    exact .queued (hs.inputs.trans hi) hnone
  | fed hp hn =>
    refine .fed ?_ fun x hx ↦ hn x (List.mem_cons_of_mem _ hx)
    rw [hs.inputs]
    rwa [List.flatten_cons, ← List.append_assoc] at hp
  | typed hk hno =>
    obtain ⟨rfl, hnone⟩ := List.forall_mem_cons.mp hno
    rw [feed_nil] at hs ⊢
    exact .typed (hk.of_supply hs) hnone
  | produced hi hp hw hno =>
    obtain ⟨rfl, hnone⟩ := List.forall_mem_cons.mp hno
    rw [feed_nil] at hs ⊢
    exact .produced (hs.inputs.trans hi) (hs.producer.trans hp) hw hnone

/-- A machine that reads an input gets the next word, wherever that comes from. -/
theorem Sourced.step_of_some (h : Sourced (w :: ws) m (piece :: pieces))
    (ht : (m.feed piece).inputTarget? = some address) :
    (m.feed piece).takeInput.1 = .ok w ∧ Sourced ws (m.feed piece).step.2 pieces := by
  have hs := (step_supply_of_some ht).1
  cases h with
  | queued hi hno =>
    obtain ⟨rfl, hnone⟩ := List.forall_mem_cons.mp hno
    rw [feed_nil] at hs ⊢
    rw [takeInput_of_queued hi] at hs ⊢
    exact ⟨rfl, .queued hs.inputs hnone⟩
  | fed hp hn =>
    obtain ⟨hr, next, hplan⟩ := Processor.inputTarget?_eq_some_iff.mp ht
    obtain ⟨v, vs, hi⟩ := exists_queued (hn _ List.mem_cons_self) hr hplan
    have hq : m.inputs ++ piece = v :: vs := hi
    rw [List.flatten_cons, ← List.append_assoc, hq, List.cons_append, List.cons_prefix_cons] at hp
    rw [takeInput_of_queued hi] at hs ⊢
    refine ⟨congrArg Except.ok hp.1, .fed ?_ fun x hx ↦ hn x (List.mem_cons_of_mem _ hx)⟩
    rw [hs.inputs]
    exact hp.2
  | typed hk hno =>
    obtain ⟨rfl, hnone⟩ := List.forall_mem_cons.mp hno
    rw [feed_nil] at hs ⊢
    obtain ⟨ha, hk⟩ := hk.takeInput
    exact ⟨ha, .typed (hk.of_supply hs) hnone⟩
  | produced hi hp hw hno =>
    obtain ⟨rfl, hnone⟩ := List.forall_mem_cons.mp hno
    rw [feed_nil] at hs ⊢
    rw [takeInput_of_producer hi hp] at hs ⊢
    obtain ⟨ha, hw⟩ := hw m.toProcessor
    exact ⟨ha, .produced (hs.inputs.trans hi) hs.producer hw hnone⟩

theorem reading_cons_of_none (ht : (m.feed piece).inputTarget? = none) :
    m.reading (piece :: pieces) = (m.feed piece).step.2.reading pieces := by
  rw [reading, walk, List.filter_cons_of_neg (by simp [ht])]
  rfl

theorem reading_cons_of_some (ht : (m.feed piece).inputTarget? = some address) :
    m.reading (piece :: pieces) = m.feed piece :: (m.feed piece).step.2.reading pieces := by
  rw [reading, walk, List.filter_cons_of_pos (by simp [ht])]
  rfl

/-- The inputs that are read are the first of those that there are, in their order. -/
theorem Sourced.stores (h : Sourced ws m pieces) (hr : (m.reading pieces).length ≤ ws.length) :
    List.Forall₂ Stores (m.reading pieces) (ws.take (m.reading pieces).length) := by
  induction pieces generalizing ws m with
  | nil => exact .nil
  | cons piece pieces ih =>
    cases ht : (m.feed piece).inputTarget? with
    | none =>
      rw [reading_cons_of_none ht] at hr ⊢
      exact ih (h.step_of_none ht) hr
    | some address =>
      rw [reading_cons_of_some ht] at hr ⊢
      cases ws with
      | nil => cases hr
      | cons w ws =>
        obtain ⟨ha, h⟩ := h.step_of_some ht
        have hstored : (m.feed piece).store.Stored address w (m.feed piece).step.2.store := by
          rw [(step_supply_of_some ht).2.1 w ha]
          exact Store.stored_set _ address w
        exact .cons ⟨address, ht, hstored⟩ (ih h (Nat.le_of_succ_le_succ hr))

theorem Keyed.step_of_some (hk : m.Keyed ws) (ht : m.inputTarget? = some address) :
    m.step.2.Keyed ws.tail := by
  have hs := (step_supply_of_some ht).1
  cases ws with
  | nil => exact hk.takeInput_of_done.2.of_supply hs
  | cons w ws => exact hk.takeInput.2.of_supply hs

/-- Once all the words have been read, the end of the input is all that is found. -/
theorem Keyed.fails (hk : m.Keyed ws) (k : Nat) :
    ∀ x ∈ (m.reading (List.replicate k [])).drop ws.length,
      x.step.1 = .error (Failure.endOfInput.locate x.pos) := by
  induction k generalizing ws m with
  | zero => simp [reading, walk]
  | succ k ih =>
    rw [List.replicate_succ]
    cases ht : m.inputTarget? with
    | none =>
      rw [← feed_nil m] at ht
      rw [reading_cons_of_none ht, feed_nil]
      rw [feed_nil] at ht
      exact ih (hk.of_supply (step_supply_of_none ht))
    | some address =>
      have hk' := hk.step_of_some ht
      rw [← feed_nil m] at ht
      rw [reading_cons_of_some ht, feed_nil]
      rw [feed_nil] at ht
      cases ws with
      | cons w ws => exact ih hk'
      | nil =>
        refine List.forall_mem_cons.mpr ⟨?_, ih hk'⟩
        exact (step_supply_of_some ht).2.2 _ hk.takeInput_of_done.1

end

section
variable {π₁ π₂ : Type} [Producer π₁] [Producer π₂] {m₁ : Machine π₁} {m₂ : Machine π₂}
  {ws : List Word} {pieces₁ pieces₂ : List (List Word)}

theorem Sourced.agree (h₁ : Sourced ws m₁ pieces₁) (h₂ : Sourced ws m₂ pieces₂)
    (hb : m₁.bare = m₂.bare) (hk : pieces₁.length = pieces₂.length)
    (hr : (m₁.reading pieces₁).length ≤ ws.length) :
    List.Forall₂ Agrees (m₁.walk pieces₁) (m₂.walk pieces₂) := by
  induction pieces₁ generalizing ws m₁ m₂ pieces₂ with
  | nil =>
    rw [List.length_eq_zero_iff.mp hk.symm]
    exact .nil
  | cons p₁ pieces₁ ih =>
    obtain ⟨p₂, pieces₂, rfl⟩ := List.exists_cons_of_length_eq_add_one hk.symm
    have hk := Nat.succ.inj hk
    have hb : (m₁.feed p₁).bare = (m₂.feed p₂).bare := hb
    have ht := Processor.inputTarget?_of_bare hb
    cases ht₁ : (m₁.feed p₁).inputTarget? with
    | none =>
      have hs := step_agree hb fun hi ↦ by rw [ht₁] at hi; cases hi
      rw [reading_cons_of_none ht₁] at hr
      exact .cons ⟨hb, hs⟩
        (ih (h₁.step_of_none ht₁) (h₂.step_of_none (ht.symm.trans ht₁)) hs.2 hk hr)
    | some address =>
      rw [reading_cons_of_some ht₁] at hr
      cases ws with
      | nil => cases hr
      | cons w ws =>
        obtain ⟨ha₁, h₁⟩ := h₁.step_of_some ht₁
        obtain ⟨ha₂, h₂⟩ := h₂.step_of_some (ht.symm.trans ht₁)
        have hs := step_agree hb fun _ ↦ ha₁.trans ha₂.symm
        exact .cons ⟨hb, hs⟩ (ih h₁ h₂ hs.2 hk (Nat.le_of_succ_le_succ hr))

/-- At the console the machines agree also when they read more inputs than there are. -/
theorem Keyed.agree (h₁ : m₁.Keyed ws) (h₂ : m₂.Keyed ws) (hb : m₁.bare = m₂.bare) (k : Nat) :
    List.Forall₂ Agrees (m₁.walk (List.replicate k [])) (m₂.walk (List.replicate k [])) := by
  induction k generalizing ws m₁ m₂ with
  | zero => exact .nil
  | succ k ih =>
    rw [List.replicate_succ, walk, walk, feed_nil, feed_nil]
    have ha : m₁.takeInput.1 = m₂.takeInput.1 := by
      cases ws with
      | nil => exact h₁.takeInput_of_done.1.trans h₂.takeInput_of_done.1.symm
      | cons w ws => exact h₁.takeInput.1.trans h₂.takeInput.1.symm
    have hs := step_agree hb fun _ ↦ ha
    have ht := Processor.inputTarget?_of_bare hb
    refine .cons ⟨hb, hs⟩ ?_
    cases ht₁ : m₁.inputTarget? with
    | none =>
      have ht₂ := ht.symm.trans ht₁
      exact ih (h₁.of_supply (step_supply_of_none ht₁)) (h₂.of_supply (step_supply_of_none ht₂)) hs.2
    | some address => exact ih (h₁.step_of_some ht₁) (h₂.step_of_some (ht.symm.trans ht₁)) hs.2

/-- It makes no difference where the inputs come from, as long as there are enough of them: each
step has the same answer and leaves the machine in the same state, and the inputs are stored in
their order. With no producer it makes none either when there are too few, and reading one more
fails at the end of the input. -/
theorem sources_agree (ws : List Word) (hb : m₁.bare = m₂.bare) :
    (∀ pieces₁ pieces₂, Sourced ws m₁ pieces₁ → Sourced ws m₂ pieces₂ →
      pieces₁.length = pieces₂.length → (m₁.reading pieces₁).length ≤ ws.length →
        List.Forall₂ Agrees (m₁.walk pieces₁) (m₂.walk pieces₂) ∧
        List.Forall₂ Stores (m₁.reading pieces₁) (ws.take (m₁.reading pieces₁).length)) ∧
    (m₁.Keyed ws → m₂.Keyed ws → ∀ k,
      List.Forall₂ Agrees (m₁.walk (List.replicate k [])) (m₂.walk (List.replicate k [])) ∧
      ∀ x ∈ (m₁.reading (List.replicate k [])).drop ws.length,
        x.step.1 = .error (Failure.endOfInput.locate x.pos)) :=
  ⟨fun _ _ h₁ h₂ hk hr ↦ ⟨h₁.agree h₂ hb hk hr, h₁.stores hr⟩,
    fun hk₁ hk₂ k ↦ ⟨hk₁.agree hk₂ hb k, hk₁.fails k⟩⟩

end

/-- A program that reads two words and puts out their sum, with inputs from a producer. -/
def adder : Machine Script where
  store := .ofList [3, 0, 3, 1, 1, 0, 1, 0, 4, 0, 99]
  producer := some (.answers [5, -7])

/-- The same program with the first word queued, and the second typed on a line that is not ended. -/
def keyedAdder : Machine Empty where
  toProcessor := { adder.toProcessor with inputs := [5] }
  console := { unread := [9, 45, 55, 32] }

/-- The words are found in the first two cells once they have been read. -/
theorem sources_agree_of_adder :
    let pieces : List (List Word) := List.replicate 5 []
    adder.bare = keyedAdder.bare ∧ (adder.reading pieces).length ≤ 2 ∧
      List.Forall₂ Agrees (adder.walk pieces) (keyedAdder.walk pieces) ∧
      ∃ x y, adder.reading pieces = [x, y] ∧
        x.step.2.store.get 0 = 5 ∧ y.step.2.store.get 1 = -7 ∧ y.step.2.store.get 0 = 5 := by
  intro pieces
  have hline : Console.Line (-7) [9, 45, 55, 32] :=
    @Console.Line.mk (-7) ['\t'] ['-', '7'] [' '] (List.forall_mem_singleton.mpr (by decide)) rfl
      (List.forall_mem_singleton.mpr (by decide))
  have h₁ : Sourced [5, -7] adder pieces :=
    .produced rfl rfl (Script.serves_answers _) (by decide)
  have h₂ : Sourced [5, -7] keyedAdder pieces :=
    .typed ⟨rfl, [-7], .last hline, rfl⟩ (by decide)
  have hbare : adder.bare = keyedAdder.bare := rfl
  have hr : (adder.reading (List.replicate 5 [])).length ≤ 2 := by decide +kernel
  obtain ⟨hagree, hstores⟩ := (sources_agree [5, -7] hbare).1 _ _ h₁ h₂ rfl hr
  obtain ⟨x, y, hxy, hx, hy, hyx⟩ : ∃ x y, adder.reading pieces = [x, y] ∧
      x.inputTarget? = some 0 ∧ y.inputTarget? = some 1 ∧ y.store = x.step.2.store :=
    ⟨_, _, rfl, rfl, rfl, rfl⟩
  rw [hxy] at hstores
  obtain _ | ⟨⟨a, ha, hfirst⟩, _ | ⟨⟨b, hb, hsecond⟩, -⟩⟩ := hstores
  cases hx.symm.trans ha
  cases hy.symm.trans hb
  refine ⟨hbare, hr, hagree, x, y, hxy, hfirst.get_self, hsecond.get_self, ?_⟩
  rw [hsecond.get_of_ne 0 (by decide), hyx, hfirst.get_self]

end Machine

end Intcode
