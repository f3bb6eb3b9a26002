import Intcode.Proofs.Inputs
import Intcode.Proofs.Lifecycle
import Intcode.Proofs.Trajectory

namespace Intcode

/-- What a console shows: that a word is wanted, or a word on a line of its own. -/
inductive Shown
  | prompt
  | line (v : Word)
deriving DecidableEq

namespace Shown

def text : Shown → String
  | .prompt => "?? "
  | .line v => v.text ++ "\n"

def texts : List Shown → String
  | [] => ""
  | s :: shown => s.text ++ texts shown

/-- The words that have lines. -/
def words : List Shown → List Word
  | [] => []
  | .prompt :: shown => words shown
  | .line v :: shown => v :: words shown

theorem texts_append (us vs : List Shown) : texts (us ++ vs) = texts us ++ texts vs := by
  induction us with
  | nil => exact String.empty_append.symm
  | cons u us ih => rw [List.cons_append, texts, texts, ih, String.append_assoc]

theorem words_append (us vs : List Shown) : words (us ++ vs) = words us ++ words vs := by
  induction us with
  | nil => rfl
  | cons u us ih => cases u <;> simp only [List.cons_append, words, ih]

theorem words_map_line (vs : List Word) : words (vs.map line) = vs := by
  induction vs with
  | nil => rfl
  | cons v vs ih => rw [List.map_cons, words, ih]

end Shown

def Status.ofEnding : Except Failure Unit → Status
  | .ok () => .halted
  | .error e => .failed e

theorem Status.ofEnding_injective {a b : Except Failure Unit} (h : ofEnding a = ofEnding b) :
    a = b := by
  rcases a with e | ⟨⟩ <;> rcases b with e' | ⟨⟩ <;> cases h <;> rfl

theorem Processor.emission_eq (p : Processor) : p.emission = [] ∨ ∃ v, p.emission = [v] := by
  unfold emission
  split
  · rename_i source _ _
    cases source.value p.store p.base with
    | error e => exact .inl rfl
    | ok v => exact .inr ⟨v, rfl⟩
  · exact .inl rfl

/-- A question is printed before the line is read, whatever has been printed before. -/
theorem Console.ask_eq (c : Console) : ∃ answer unread, ∀ s,
    ask { c with printed := s } = (answer, { unread, printed := s ++ "?? " }) := by
  obtain ⟨bytes, s⟩ := c
  cases bytes with
  | nil => exact ⟨_, _, fun s ↦ rfl⟩
  | cons b bytes =>
    simp only [ask, print, readLine?]
    cases String.fromUTF8? ((b :: bytes).takeWhile (· ≠ 10)).toByteArray with
    | none => exact ⟨_, _, fun s ↦ rfl⟩
    | some text =>
      dsimp only
      cases Numeral.read (Text.trim text.toList) <;> exact ⟨_, _, fun s ↦ rfl⟩

namespace Machine

variable {π : Type}

/-- What the next step shows before it changes anything. -/
def prompts (m : Machine π) : List Shown := if m.asksConsole then [.prompt] else []

theorem asksConsole_iff {m : Machine π} :
    m.asksConsole ↔ m.inputTarget?.isSome ∧ m.inputs = [] ∧ m.producer = none := by
  rw [Option.isSome_iff_exists]
  simp only [Processor.inputTarget?_eq_some_iff]
  unfold asksConsole
  split <;> grind

/-- The machine without its outputs and with nothing printed. -/
def mute (m : Machine π) : Machine π :=
  { m with outputs := [], console := { m.console with printed := "" } }

/-- The machine with `vs` in front of its outputs, and `s` printed before all that it printed. -/
def restore (vs : List Word) (s : String) (m : Machine π) : Machine π :=
  { m with
    outputs := vs ++ m.outputs
    console := { m.console with printed := s ++ m.console.printed } }

theorem restore_mute (m : Machine π) : restore m.outputs m.console.printed m.mute = m := by
  simp only [restore, mute, List.append_nil, String.append_empty]

theorem overlay_restore (vs : List Word) (s : String) : Overlay (restore (π := π) vs s) where
  plan _ := rfl
  status _ := rfl
  pos _ := rfl
  size _ := rfl
  apply m effect := by cases effect <;> simp only [apply, restore, Processor.apply, List.append_assoc]
  moved _ _ := rfl
  left _ _ := rfl

section
variable {m n : Machine Empty}

theorem takeInput_restore (m : Machine Empty) (vs : List Word) (s : String) :
    (restore vs s m).takeInput = (m.takeInput.1, restore vs s m.takeInput.2) := by
  cases hi : m.inputs with
  | cons w ws => rw [takeInput_of_queued hi, takeInput_of_queued (m := restore vs s m) hi]; rfl
  | nil =>
    cases hs : m.producer with
    | some t => exact nomatch t
    | none =>
      obtain ⟨answer, unread, ha⟩ := m.console.ask_eq
      have hm : m.console.ask = _ := ha m.console.printed
      have hr : (restore vs s m).console.ask = _ := ha (s ++ m.console.printed)
      rw [takeInput_of_console hi hs, takeInput_of_console (m := restore vs s m) hi hs, hm, hr]
      simp only [restore, String.append_assoc]

theorem step_restore (m : Machine Empty) (vs : List Word) (s : String) :
    (restore vs s m).step = (m.step.1, restore vs s m.step.2) :=
  (overlay_restore vs s).step fun _ _ _ _ ↦ takeInput_restore m vs s

/-- What has been put out and printed makes no difference to a step. -/
theorem step_of_mute (h : m.mute = n.mute) :
    m.step.1 = n.step.1 ∧ m.step.2.mute = n.step.2.mute := by
  have hm := step_restore m.mute m.outputs m.console.printed
  have hn := step_restore n.mute n.outputs n.console.printed
  rw [restore_mute] at hm hn
  rw [hm, hn, h]
  exact ⟨rfl, rfl⟩

theorem shows_of_mute (h : m.mute = n.mute) :
    m.prompts = n.prompts ∧ m.emission = n.emission := by
  have hp : m.mute.prompts = n.mute.prompts := congrArg prompts h
  have he : m.mute.emission = n.mute.emission := by rw [h]
  exact ⟨hp, he⟩

theorem step_printed (m : Machine Empty) :
    m.step.2.console.printed = m.console.printed ++ Shown.texts m.prompts := by
  have hquiet (h : ¬m.asksConsole) (hc : m.step.2.console = m.console) :
      m.step.2.console.printed = m.console.printed ++ Shown.texts m.prompts := by
    rw [hc, prompts, if_neg h]
    exact String.append_empty.symm
  cases ht : m.inputTarget? with
  | none =>
    refine hquiet (fun h ↦ ?_) (step_supply_of_none ht).console
    have hs := (asksConsole_iff.mp h).1
    rw [ht] at hs
    cases hs
  | some address =>
    have hc := (step_supply_of_some ht).1.console
    cases hi : m.inputs with
    | cons v vs =>
      refine hquiet (fun h ↦ ?_) (by rw [hc, takeInput_of_queued hi])
      cases hi.symm.trans (asksConsole_iff.mp h).2.1
    | nil =>
      cases hs : m.producer with
      | some t => exact nomatch t
      | none =>
        have ha : m.asksConsole := asksConsole_iff.mpr ⟨Option.isSome_of_eq_some ht, hi, hs⟩
        obtain ⟨answer, unread, hask⟩ := m.console.ask_eq
        have hm : m.console.ask = _ := hask m.console.printed
        rw [hc, takeInput_of_console hi hs, prompts, if_pos ha, hm]
        rfl

end

section
variable [Producer π]

/-- What the console shows until the machine ends, and how it ends. What a step puts out is shown
after its prompt, and not at all if the step fails. -/
inductive Shows : Machine π → List Shown → Except Failure Unit → Prop
  | halt {m n : Machine π} (hs : m.step = (.ok false, n)) : Shows m m.prompts (.ok ())
  | fail {m n : Machine π} {e : Failure} (hs : m.step = (.error e, n)) :
      Shows m m.prompts (.error e)
  | move {m n : Machine π} {shown : List Shown} {ending : Except Failure Unit}
      (hs : m.step = (.ok true, n)) (h : Shows n shown ending) :
      Shows m (m.prompts ++ m.emission.map .line ++ shown) ending

variable {m n : Machine π} {us vs : List Shown} {a b : Except Failure Unit}

theorem Shows.unique (h : Shows m us a) (h' : Shows m vs b) : us = vs ∧ a = b := by
  induction h generalizing vs b with
  | halt hs =>
    cases h' with
    | halt => exact ⟨rfl, rfl⟩
    | fail hs' | move hs' => cases hs.symm.trans hs'
  | fail hs =>
    cases h' with
    | fail hs' => cases hs.symm.trans hs'; exact ⟨rfl, rfl⟩
    | halt hs' | move hs' => cases hs.symm.trans hs'
  | move hs _ ih =>
    cases h' with
    | halt hs' | fail hs' => cases hs.symm.trans hs'
    | move hs' h' =>
      cases hs.symm.trans hs'
      obtain ⟨hu, ha⟩ := ih h'
      exact ⟨by rw [hu], ha⟩

omit [Producer π] in
theorem words_prompts (m : Machine π) : Shown.words m.prompts = [] := by
  unfold prompts
  split <;> rfl

/-- How a machine has ended that does not run on. -/
theorem ended_of_step (hr : m.status = .running) :
    (m.step = (.ok false, n) → n.status = .ofEnding (.ok ()) ∧ m.emission = [] ∧ n.step.2 = n) ∧
    ∀ e, m.step = (.error e, n) → n.status = .ofEnding (.error e) ∧ n.step.2 = n := by
  refine ⟨fun hs ↦ ?_, fun e hs ↦ ?_⟩
  · have hn : n.status = .halted := (halted_iff_of_step hs).mp rfl
    refine ⟨hn, ?_, by rw [step_of_halted hn]⟩
    cases step_eq_iff.mp hs with
    | rest h => cases hr.symm.trans h
    | halt h hp => exact Processor.emission_of_plan h hp
  · have hn : n.status = .failed e := failed_of_step (ne_failed_of_running hr) hs
    exact ⟨hn, by rw [step_of_failed hn]⟩

theorem Shows.status (h : Shows m us a) (hr : m.status = .running) :
    (∃ k, (m.after k).status = .ofEnding a) ∧
      ∀ k, (m.after k).status = .running ∨ (m.after k).status = .ofEnding a := by
  have hstop {m n : Machine π} {answer : Except Failure Bool} {a : Except Failure Unit}
      (hr : m.status = .running) (hs : m.step = (answer, n))
      (hn : n.status = .ofEnding a ∧ n.step.2 = n) :
      (∃ k, (m.after k).status = .ofEnding a) ∧
        ∀ k, (m.after k).status = .running ∨ (m.after k).status = .ofEnding a := by
    refine ⟨⟨1, by rw [after, hs]; exact hn.1⟩, fun k ↦ ?_⟩
    cases k with
    | zero => exact .inl hr
    | succ k =>
      rw [after, hs, after_of_still hn.2]
      exact .inr hn.1
  induction h with
  | halt hs =>
    obtain ⟨hn, -, hstill⟩ := (ended_of_step hr).1 hs
    exact hstop hr hs ⟨hn, hstill⟩
  | fail hs => exact hstop hr hs ((ended_of_step hr).2 _ hs)
  | @move m n shown a hs h ih =>
    obtain ⟨⟨k, hk⟩, hall⟩ := ih (running_of_step hs).2
    refine ⟨⟨k + 1, by rw [after, hs]; exact hk⟩, fun k ↦ ?_⟩
    cases k with
    | zero => exact .inl hr
    | succ k => rw [after, hs]; exact hall k

theorem Shows.eq_ending_iff (h : Shows m us a) (hr : m.status = .running)
    (b : Except Failure Unit) : a = b ↔ ∃ k, (m.after k).status = .ofEnding b := by
  obtain ⟨hend, hall⟩ := h.status hr
  constructor
  · rintro rfl
    exact hend
  · intro hb
    obtain ⟨k, hk⟩ := hb
    rcases hall k with hrun | ha
    · rcases b with e | ⟨⟩ <;> cases hrun.symm.trans hk
    · exact Status.ofEnding_injective (ha.symm.trans hk)

omit [Producer π] in
theorem words_shown (m : Machine π) (shown : List Shown) :
    Shown.words (m.prompts ++ m.emission.map .line ++ shown) = m.emission ++ Shown.words shown := by
  rw [Shown.words_append, Shown.words_append, words_prompts, Shown.words_map_line]
  rfl

theorem emissions_of_halted {m : Machine π} (h : m.status = .halted) (k : Nat) :
    m.emissions k = [] := by
  induction k with
  | zero => rfl
  | succ k ih =>
    have hm : m.status ≠ .running := fun hr ↦ by cases h.symm.trans hr
    rw [emissions, step_of_halted h, ih, Processor.emission_of_not_running hm]
    rfl

/-- A machine that halts has shown all that it put out. -/
theorem Shows.emissions_eq (h : Shows m us a) (hr : m.status = .running) {k : Nat}
    (hk : (m.after k).status = .halted) : m.emissions k = Shown.words us := by
  induction h generalizing k with
  | @halt m n hs =>
    obtain ⟨hn, he, -⟩ := (ended_of_step hr).1 hs
    cases k with
    | zero => cases hr.symm.trans hk
    | succ k => rw [emissions, hs, he, emissions_of_halted hn, words_prompts]; rfl
  | fail hs =>
    cases k with
    | zero => cases hr.symm.trans hk
    | succ k =>
      obtain ⟨hn, hstill⟩ := (ended_of_step hr).2 _ hs
      rw [after, hs, after_of_still hstill] at hk
      cases hn.symm.trans hk
  | move hs h ih =>
    cases k with
    | zero => cases hr.symm.trans hk
    | succ k =>
      rw [after, hs] at hk
      rw [words_shown, emissions, hs, ih (running_of_step hs).2 hk]

end

/-- The machine runs, and all its outputs have been taken. -/
structure Idle (m : Machine π) : Prop where
  running : m.status = .running
  taken : m.outputs = []

theorem Idle.pending? {m : Machine π} (h : m.Idle) : m.pending? = none :=
  pending?_eq_none_iff.mpr ⟨ne_failed_of_running h.running, h.taken⟩

theorem Idle.outputs_eq [Producer π] {m n : Machine π} (h : m.Idle) (hs : m.step = (.ok true, n)) :
    n.outputs = m.emission := by
  have ho := m.step_outputs
  rw [hs, h.taken] at ho
  exact ho

section
variable {m n : Machine Empty} {shown : List Shown} {ending : Except Failure Unit}

theorem step_eq_of_mute {answer : Except Failure Bool} {m' : Machine Empty} (hm : m.mute = n.mute)
    (hs : m.step = (answer, m')) : ∃ n', n.step = (answer, n') ∧ m'.mute = n'.mute := by
  obtain ⟨ha, hn⟩ := step_of_mute hm
  rw [hs] at ha hn
  exact ⟨n.step.2, Prod.ext ha.symm rfl, hn⟩

theorem Shows.of_mute (h : Shows m shown ending) (hm : m.mute = n.mute) : Shows n shown ending := by
  induction h generalizing n with
  | halt hs =>
    obtain ⟨n', hs', -⟩ := step_eq_of_mute hm hs
    rw [(shows_of_mute hm).1]
    exact .halt hs'
  | fail hs =>
    obtain ⟨n', hs', -⟩ := step_eq_of_mute hm hs
    rw [(shows_of_mute hm).1]
    exact .fail hs'
  | move hs _ ih =>
    obtain ⟨n', hs', hn⟩ := step_eq_of_mute hm hs
    obtain ⟨hp, he⟩ := shows_of_mute hm
    rw [hp, he]
    exact .move hs' (ih hn)

/-- The lines are the outputs that are found one by one. -/
theorem Shows.drains (h : Shows m shown ending) (hm : m.mute = n.mute) (hn : n.Idle) :
    ∃ n', Drains n (Shown.words shown) ending n' := by
  -- An output is taken before the next is looked for, so the rest is that of another machine.
  induction h generalizing n with
  | halt hs =>
    obtain ⟨n', hs', -⟩ := step_eq_of_mute hm hs
    rw [words_prompts]
    exact ⟨n', .halt (nextOutput?_of_halt hn.pending? hs' 0)⟩
  | fail hs =>
    obtain ⟨n', hs', -⟩ := step_eq_of_mute hm hs
    rw [words_prompts]
    exact ⟨n', .fail (nextOutput?_of_error hn.pending? hs' 0)⟩
  | @move m m' shown ending hs h ih =>
    obtain ⟨n', hs', hm'⟩ := step_eq_of_mute hm hs
    have hr := (running_of_step hs').2
    let t : Machine Empty := { n' with outputs := [] }
    obtain ⟨z, hz⟩ := @ih t hm' ⟨hr, rfl⟩
    have hn' : prepend m.emission t = n' := by
      rw [(shows_of_mute hm).2, ← hn.outputs_eq hs']
      simp only [t, prepend, List.append_nil]
    have hd := hz.prepend (ne_failed_of_running (m := t) hr) m.emission
    rw [hn'] at hd
    rw [words_shown]
    exact ⟨z, hd.of_step hn.pending? hs'⟩

/-- The whole of what is shown until the machine ends in this way. -/
structure Finishes (m : Machine Empty) (shown : List Shown) (ending : Except Failure Unit) :
    Prop where
  shows : Shows m shown ending
  drains : ∃ n, Drains m (Shown.words shown) ending n
  halts : ending = .ok () ↔ ∃ k, (m.after k).status = .halted
  fails (e : Failure) : ending = .error e ↔ ∃ k, (m.after k).status = .failed e
  complete (k : Nat) : (m.after k).status = .halted → m.emissions k = Shown.words shown

theorem Shows.finishes (h : Shows m shown ending) (hi : m.Idle) : Finishes m shown ending := by
  have hends := fun b ↦ h.eq_ending_iff hi.running b
  exact ⟨h, h.drains rfl hi, hends (.ok ()), fun e ↦ hends (.error e),
    fun k hk ↦ h.emissions_eq hi.running hk⟩

end

end Machine

end Intcode
