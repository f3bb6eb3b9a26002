import Intcode.Proofs.Outcome

namespace Intcode

namespace Machine

theorem exists_shows {π : Type} [Producer π] {m : Machine π} {fuel : Nat}
    {r : Except Failure (List Word) × Machine π} (h : m.run? fuel = some r) :
    ∃ shown ending, m.Shows shown ending := by
  fun_induction run? fuel m with
  | case1 => cases h
  | case2 m fuel e n hs => exact ⟨_, _, .fail hs⟩
  | case3 m fuel n hs => exact ⟨_, _, .halt hs⟩
  | case4 m fuel n hs ih =>
    obtain ⟨shown, ending, hn⟩ := ih h
    exact ⟨_, ending, .move hs hn⟩

theorem Drains.shows {m m' : Machine Empty} {vs : List Word} {ending : Except Failure Unit}
    (hd : Drains m vs ending m') : ∃ shown ending, m.Shows shown ending := by
  obtain ⟨-, fuel, hr⟩ := hd.run? fun s ↦ nomatch s
  exact exists_shows hr

end Machine

namespace CommandLine

variable {o : Options} {text : String} {typed : List UInt8}

/-- The machine that is played at a console where `typed` is to be read. -/
def Loads (o : Options) (text : String) (typed : List UInt8) (x : Machine Empty) : Prop :=
  ¬o.list ∧ ∃ m, prepare o text = .ok m ∧ x = { m with console := { unread := typed } }

theorem loads_iff {x : Machine Empty} : Loads o text typed x ↔ ∃ image,
    Program.parse text = .ok image ∧ firstMisplaced? o.patches = none ∧ ¬o.list ∧
      x = started image o typed := by
  unfold Loads prepare
  cases Program.parse text with
  | error e => simp [bind, Except.bind]
  | ok image =>
    have ha := applyPatches_eq (.ofList image) o.patches
    simp only [bind, Except.bind, ha]
    cases firstMisplaced? o.patches with
    | some p => simp
    | none => simp [pure, Except.pure, started]

/-- There is something to report if the machine that is played comes to an end, its outputs being
taken one by one. -/
theorem exists_reports_iff : (∃ r, Reports o text typed r) ↔
    ∀ x, Loads o text typed x → ∃ vs ending m', Machine.Drains x vs ending m' := by
  constructor
  · intro h x hx
    obtain ⟨r, h⟩ := h
    obtain ⟨image, hp, hm, hl, rfl⟩ := loads_iff.mp hx
    cases h with
    | unparsed hp' => cases hp.symm.trans hp'
    | misplaced _ hm' => cases hm.symm.trans hm'
    | listed _ _ hl' => exact absurd hl' hl
    | played hp' _ _ hf =>
      cases hp.symm.trans hp'
      obtain ⟨m', hd⟩ := hf.drains
      exact ⟨_, _, m', hd⟩
  · intro h
    cases hp : Program.parse text with
    | error e => exact ⟨_, .unparsed hp⟩
    | ok image =>
      cases hm : firstMisplaced? o.patches with
      | some p => exact ⟨_, .misplaced hp hm rfl⟩
      | none =>
        by_cases hl : o.list
        · exact ⟨_, .listed hp hm hl⟩
        · obtain ⟨vs, ending, m', hd⟩ := h _ (loads_iff.mpr ⟨image, hp, hm, hl, rfl⟩)
          obtain ⟨shown, ending, hs⟩ := hd.shows
          exact ⟨_, .played hp hm hl (hs.finishes (idle_started image o typed))⟩

theorem session?_zero {x : Machine Empty} (hi : x.Idle) (fuel : Nat) :
    session? 0 fuel x = none := by
  induction fuel with
  | zero => rfl
  | succ fuel ih =>
    rw [session?, turn_zero hi]
    exact ih

theorem ends_zero_iff (hc : o.cycles = 0) :
    (∃ fuel r, (Task.ofText o text).outcome? fuel typed = some r) ↔
      ∀ x, ¬Loads o text typed x := by
  rw [ofText_eq]
  simp only [loads_iff]
  cases hp : Program.parse text with
  | error e => exact iff_of_true ⟨0, _, rfl⟩ (by simp)
  | ok image =>
    cases hm : firstMisplaced? o.patches with
    | some p => exact iff_of_true ⟨0, _, rfl⟩ (by simp)
    | none =>
      by_cases hl : o.list
      · simp only [if_pos hl]
        exact iff_of_true ⟨0, _, rfl⟩ (by simp [hl])
      · simp only [if_neg hl, outcome?_play, hc, session?_zero (idle_started image o typed)]
        simp [hl]

/-- If the machine comes to an end at all when its outputs are taken one by one, then the command
ends with any limit on the length of a turn but zero. With that it never ends, whatever the machine
would do. -/
theorem outcome_ends_iff (o : Options) (text : String) (typed : List UInt8) :
    let ends n := ∃ fuel r,
      (Task.ofFile { o with cycles := n } (.ok text.toUTF8)).outcome? fuel typed = some r
    (∀ n, 0 < n → (ends n ↔
      ∀ x, Loads o text typed x → ∃ vs ending m', Machine.Drains x vs ending m')) ∧
    (ends 0 ↔ ∀ x, ¬Loads o text typed x) := by
  intro ends
  have hends (n : Nat) : ends n ↔ ∃ fuel r,
      (Task.ofText { o with cycles := n } text).outcome? fuel typed = some r := by
    rw [← ofFile_text]
  refine ⟨fun n hn ↦ ?_, (hends 0).trans (ends_zero_iff rfl)⟩
  rw [hends, ← exists_reports_iff]
  constructor
  · intro h
    obtain ⟨fuel, r, h⟩ := h
    exact ⟨r, (Reports.of_outcome? h).of_cycles⟩
  · intro h
    obtain ⟨r, h⟩ := h
    obtain ⟨fuel, hf⟩ := Reports.exists_outcome? (o := { o with cycles := n }) hn h.with_cycles
    exact ⟨fuel, r, hf⟩

def stalled : Options where
  program := "stalled"
  inputs := []
  patches := []
  list := false
  cycles := 0
  verbosity := 0

/-- With a limit of zero a program that halts at once is not ended. -/
theorem stalled_never_ends :
    (∀ x, Loads stalled "99" [] x → ∃ vs ending m', Machine.Drains x vs ending m') ∧
    ¬∃ fuel r, (Task.ofFile stalled (.ok "99".toUTF8)).outcome? fuel [] = some r := by
  have hp : Program.parse "99" = .ok [99] := rfl
  have hn : ∃ m', (started [99] stalled []).nextOutput? 1 = some (.ok none, m') := ⟨_, rfl⟩
  refine ⟨fun x hx ↦ ?_, fun h ↦ ?_⟩
  · obtain ⟨image, hi, -, -, rfl⟩ := loads_iff.mp hx
    cases hp.symm.trans hi
    obtain ⟨m', hn⟩ := hn
    exact ⟨_, _, m', .halt hn⟩
  · rw [ofFile_text] at h
    exact (ends_zero_iff rfl).mp h _ (loads_iff.mpr ⟨_, hp, rfl, nofun, rfl⟩)

end CommandLine

end Intcode
