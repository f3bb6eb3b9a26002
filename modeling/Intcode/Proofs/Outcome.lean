import Intcode.CommandLine.Session
import Intcode.Proofs.Transcript

namespace Intcode.CommandLine

section
variable {cycles fuel : Nat} {x y n : Machine Empty} {answer : Option (Except Failure Unit)}
  {shown : List Shown} {ending : Except Failure Unit}

theorem turn_zero (hi : x.Idle) : turn 0 x = (none, x) := by
  rw [turn, Machine.execute_zero hi.pending?, if_neg fun h ↦ by cases hi.running.symm.trans h]

theorem turn_of_error {e : Failure} (hi : x.Idle) (hs : x.step = (.error e, n)) (cycles : Nat) :
    turn (cycles + 1) x = (some (.error e), n) := by
  rw [turn, Machine.execute_of_error hi.pending? hs]

theorem turn_of_halt (hi : x.Idle) (hs : x.step = (.ok false, n)) (cycles : Nat) :
    turn (cycles + 1) x = (some (.ok ()), n) := by
  rw [turn, Machine.execute_of_halt hi.pending? hs]

/-- The machine once its only output has been taken and shown. -/
def tell (m : Machine Empty) (v : Word) : Machine Empty :=
  { m with outputs := [], console := m.console.print (v.text ++ "\n") }

theorem idle_tell (h : n.status = .running) (v : Word) : (tell n v).Idle := ⟨h, rfl⟩

theorem turn_of_silent (hi : x.Idle) (hs : x.step = (.ok true, n)) (he : x.emission = [])
    (cycles : Nat) : n.Idle ∧ turn (cycles + 1) x = turn cycles n := by
  refine ⟨⟨(Machine.running_of_step hs).2, (hi.outputs_eq hs).trans he⟩, ?_⟩
  rw [turn, Machine.execute_of_alive hi.pending? hs]
  rfl

theorem turn_of_output {v : Word} (hi : x.Idle) (hs : x.step = (.ok true, n))
    (he : x.emission = [v]) (cycles : Nat) : turn (cycles + 1) x = (none, tell n v) := by
  have hn := Machine.ne_failed_of_running (Machine.running_of_step hs).2
  have hp := Machine.pending?_of_cons hn ((hi.outputs_eq hs).trans he)
  rw [turn, Machine.execute_of_alive hi.pending? hs, Machine.execute_of_pending hp]
  rfl

/-- What a turn shows is the first part of what the machine shows. -/
inductive Turned (x : Machine Empty) : Option (Except Failure Unit) → Machine Empty → Prop
  | ended {y : Machine Empty} {shown : List Shown} {ending : Except Failure Unit}
      (h : x.Shows shown ending)
      (hc : y.console.printed = x.console.printed ++ Shown.texts shown) : Turned x (some ending) y
  | paused {y : Machine Empty} {shown : List Shown} (hi : y.Idle)
      (h : ∀ rest ending, y.Shows rest ending → x.Shows (shown ++ rest) ending)
      (hc : y.console.printed = x.console.printed ++ Shown.texts shown) : Turned x none y

theorem Turned.of_step (hs : x.step = (.ok true, n)) (he : x.emission = [])
    (h : Turned n answer y) : Turned x answer y := by
  have hp := x.step_printed
  rw [hs] at hp
  have hmove {shown : List Shown} {ending : Except Failure Unit} (hn : n.Shows shown ending) :
      x.Shows (x.prompts ++ shown) ending := by
    have hx := Machine.Shows.move hs hn
    rwa [he, List.map_nil, List.append_nil] at hx
  have hprinted {shown : List Shown}
      (hc : y.console.printed = n.console.printed ++ Shown.texts shown) :
      y.console.printed = x.console.printed ++ Shown.texts (x.prompts ++ shown) := by
    rw [hc, hp, Shown.texts_append, String.append_assoc]
  cases h with
  | ended hn hc => exact .ended (hmove hn) (hprinted hc)
  | paused hi hn hc =>
    refine .paused hi (fun rest ending hr ↦ ?_) (hprinted hc)
    rw [List.append_assoc]
    exact hmove (hn rest ending hr)

theorem turned (hi : x.Idle) (cycles : Nat) : Turned x (turn cycles x).1 (turn cycles x).2 := by
  induction cycles generalizing x with
  | zero =>
    rw [turn_zero hi]
    exact @Turned.paused x x [] hi (fun _ _ h ↦ h) String.append_empty.symm
  | succ cycles ih =>
    have hp := x.step_printed
    rcases hs : x.step with ⟨e | _ | _, n⟩ <;> rw [hs] at hp
    · rw [turn_of_error hi hs]
      exact .ended (.fail hs) hp
    · rw [turn_of_halt hi hs]
      exact .ended (.halt hs) hp
    · rcases x.emission_eq with he | ⟨v, he⟩
      · obtain ⟨hn, ht⟩ := turn_of_silent hi hs he cycles
        rw [ht]
        exact (ih hn).of_step hs he
      · rw [turn_of_output hi hs he]
        have hn := idle_tell (Machine.running_of_step hs).2 v
        refine @Turned.paused x _ (x.prompts ++ x.emission.map .line) hn (fun rest ending h ↦ ?_) ?_
        · exact .move hs (h.of_mute rfl)
        · rw [Shown.texts_append, ← String.append_assoc, ← hp, he]
          exact congrArg (n.console.printed ++ ·) String.append_empty.symm

/-- What a session has printed at its end is what the machine shows. -/
theorem session?_shows (hi : x.Idle) (h : session? cycles fuel x = some (ending, y)) :
    ∃ shown, x.Shows shown ending ∧
      y.console.printed = x.console.printed ++ Shown.texts shown := by
  induction fuel generalizing x with
  | zero => cases h
  | succ fuel ih =>
    have ht := turned hi cycles
    rcases hz : turn cycles x with ⟨_ | answer, z⟩ <;> rw [hz] at ht <;> rw [session?, hz] at h
    · cases ht with
      | paused hz hr hc =>
        obtain ⟨rest, hs, hp⟩ := ih hz h
        refine ⟨_, hr rest ending hs, ?_⟩
        rw [hp, hc, Shown.texts_append, String.append_assoc]
    · cases h
      cases ht with
      | ended hs hc => exact ⟨_, hs, hc⟩

/-- After a first turn with a limit of its own, the session comes to an end. -/
def EndsAfter (cycles first : Nat) (x : Machine Empty) : Prop :=
  (turn first x).1 = none → ∃ fuel r, session? cycles fuel (turn first x).2 = some r

theorem EndsAfter.session? (h : EndsAfter cycles cycles x) :
    ∃ fuel r, session? cycles fuel x = some r := by
  rcases ht : turn cycles x with ⟨_ | answer, z⟩
  · rw [EndsAfter, ht] at h
    obtain ⟨fuel, r, hr⟩ := h rfl
    exact ⟨fuel + 1, r, by rw [CommandLine.session?, ht]; exact hr⟩
  · exact ⟨1, (answer, z), by rw [CommandLine.session?, ht]⟩

/-- A turn without an instruction changes nothing. -/
theorem EndsAfter.of_succ (hc : 0 < cycles) (hi : x.Idle)
    (h : ∀ first, EndsAfter cycles (first + 1) x) (first : Nat) : EndsAfter cycles first x := by
  cases first with
  | succ first => exact h first
  | zero =>
    rw [EndsAfter, turn_zero hi]
    have hs := h (cycles - 1)
    rw [Nat.sub_add_cancel hc] at hs
    exact fun _ ↦ hs.session?

theorem endsAfter (hc : 0 < cycles) (h : x.Shows shown ending) (hm : x.mute = y.mute)
    (hi : y.Idle) (first : Nat) : EndsAfter cycles first y := by
  induction h generalizing y first with
  | halt hs =>
    obtain ⟨n, hs, -⟩ := Machine.step_eq_of_mute hm hs
    refine .of_succ hc hi (fun first ↦ ?_) first
    rw [EndsAfter, turn_of_halt hi hs]
    exact nofun
  | fail hs =>
    obtain ⟨n, hs, -⟩ := Machine.step_eq_of_mute hm hs
    refine .of_succ hc hi (fun first ↦ ?_) first
    rw [EndsAfter, turn_of_error hi hs]
    exact nofun
  | move hs _ ih =>
    obtain ⟨n, hs, hn⟩ := Machine.step_eq_of_mute hm hs
    refine .of_succ hc hi (fun first ↦ ?_) first
    rcases y.emission_eq with he | ⟨v, he⟩
    · obtain ⟨hi', ht⟩ := turn_of_silent hi hs he first
      rw [EndsAfter, ht]
      exact ih hn hi' first
    · have hi' := idle_tell (Machine.running_of_step hs).2 v
      have hz := @ih (tell n v) hn hi' 0
      rw [EndsAfter, turn_zero hi'] at hz
      rw [EndsAfter, turn_of_output hi hs he]
      exact hz

end

/-- The first patch whose address lies in front of the memory. -/
def firstMisplaced? (ps : List Patch) : Option Patch := ps.find? fun p ↦ p.address.toInt < 0

/-- The memory after the patches have been written in order. -/
def patched (s : Store) (ps : List Patch) : Store :=
  ps.foldl (fun s p ↦ s.set p.address.toInt.toNat p.value) s

theorem applyPatches_eq (s : Store) (ps : List Patch) : applyPatches s ps =
    match firstMisplaced? ps with
    | some p => .error (.negativeAddress p.address)
    | none => .ok (patched s ps) := by
  induction ps generalizing s with
  | nil => rfl
  | cons p ps ih =>
    rw [applyPatches, Store.write, Store.address, firstMisplaced?, List.find?_cons]
    by_cases hp : p.address.toInt < 0
    · rw [if_neg (Int.not_le.mpr hp), decide_eq_true hp]
      rfl
    · rw [if_pos (Int.not_lt.mp hp), decide_eq_false hp]
      exact ih _

/-- The machine that is played. -/
def started (image : List Word) (o : Options) (typed : List UInt8) : Machine Empty where
  store := patched (.ofList image) o.patches
  inputs := o.inputs
  console := { unread := typed }

/-- How a session is reported: what it has shown, and in bold the failure that ended it. -/
def Outcome.ofEnding (stdout : String) : Except Failure Unit → Outcome
  | .ok () => { exitCode := 0, stdout, stderr := "" }
  | .error e => { exitCode := 1, stdout, stderr := "\x1b[1m" ++ e.text ++ "\x1b[0m\n" }

/-- What the command comes to for a program text and what is typed. -/
inductive Reports (o : Options) (text : String) (typed : List UInt8) : Outcome → Prop
  | unparsed {e : Failure} (hp : Program.parse text = .error e) :
      Reports o text typed
        { exitCode := 1, stdout := "", stderr := "\x1b[1m" ++ e.text ++ "\x1b[0m\n" }
  | misplaced {image : List Word} {p : Patch} {e : Failure} (hp : Program.parse text = .ok image)
      (hm : firstMisplaced? o.patches = some p)
      (he : e = { kind := .address, value := some p.address }) :
      Reports o text typed
        { exitCode := 1, stdout := "", stderr := "\x1b[1m" ++ e.text ++ "\x1b[0m\n" }
  | listed {image : List Word} (hp : Program.parse text = .ok image)
      (hm : firstMisplaced? o.patches = none) (hl : o.list) :
      Reports o text typed
        { exitCode := 0
          stdout := listingText (disassemble (patched (.ofList image) o.patches))
          stderr := "" }
  | played {image : List Word} {shown : List Shown} {ending : Except Failure Unit}
      (hp : Program.parse text = .ok image) (hm : firstMisplaced? o.patches = none) (hl : ¬o.list)
      (hf : (started image o typed).Finishes shown ending) :
      Reports o text typed (.ofEnding (Shown.texts shown) ending)

section
variable {o : Options} {text : String} {typed : List UInt8} {fuel : Nat} {r r' : Outcome}

theorem idle_started (image : List Word) (o : Options) (typed : List UInt8) :
    (started image o typed).Idle := ⟨rfl, rfl⟩

theorem session?_started {image : List Word} {cycles : Nat} {ending : Except Failure Unit}
    {y : Machine Empty} (h : session? cycles fuel (started image o typed) = some (ending, y)) :
    ∃ shown, (started image o typed).Shows shown ending ∧
      y.console.printed = Shown.texts shown := by
  obtain ⟨shown, hs, hp⟩ := session?_shows (idle_started image o typed) h
  exact ⟨shown, hs, hp.trans String.empty_append⟩

theorem ofText_eq (o : Options) (text : String) : Task.ofText o text =
    match Program.parse text, firstMisplaced? o.patches with
    | .error e, _ => .print (.failure "" e)
    | .ok _, some p => .print (.failure "" (.negativeAddress p.address))
    | .ok image, none =>
      if o.list then
        .print
          { exitCode := 0
            stdout := listingText (disassemble (patched (.ofList image) o.patches))
            stderr := "" }
      else .play o.cycles { store := patched (.ofList image) o.patches, inputs := o.inputs } := by
  rw [Task.ofText, prepare]
  cases Program.parse text with
  | error e => rfl
  | ok image =>
    have ha := applyPatches_eq (.ofList image) o.patches
    simp only [bind, Except.bind, ha]
    cases firstMisplaced? o.patches <;> rfl

theorem ofFile_text (o : Options) (text : String) :
    Task.ofFile o (.ok text.toUTF8) = Task.ofText o text := by
  have hv : text.toUTF8.IsValidUTF8 := text.isValidUTF8
  rw [Task.ofFile, programText, String.fromUTF8?, dif_pos hv]
  rfl

theorem outcome?_play (o : Options) (image : List Word) (typed : List UInt8) (cycles fuel : Nat) :
    (Task.play cycles { store := patched (.ofList image) o.patches, inputs := o.inputs }).outcome?
      fuel typed = (session? cycles fuel (started image o typed)).map fun (ending, m) ↦
        .ofEnding m.console.printed ending := rfl

theorem Reports.of_outcome? (h : (Task.ofText o text).outcome? fuel typed = some r) :
    Reports o text typed r := by
  rw [ofText_eq] at h
  cases hp : Program.parse text with
  | error e =>
    rw [hp] at h
    cases h
    exact .unparsed hp
  | ok image =>
    cases hm : firstMisplaced? o.patches with
    | some p =>
      rw [hp, hm] at h
      cases h
      exact .misplaced hp hm rfl
    | none =>
      by_cases hl : o.list
      · simp only [hp, hm, if_pos hl] at h
        cases h
        exact .listed hp hm hl
      · simp only [hp, hm, if_neg hl, outcome?_play] at h
        obtain ⟨⟨ending, y⟩, hs, rfl⟩ := Option.map_eq_some_iff.mp h
        obtain ⟨shown, hshows, hprinted⟩ := session?_started hs
        dsimp only
        rw [hprinted]
        exact .played hp hm hl (hshows.finishes (idle_started image o typed))

theorem Reports.exists_outcome? (hc : 0 < o.cycles) (h : Reports o text typed r) :
    ∃ fuel, (Task.ofText o text).outcome? fuel typed = some r := by
  rw [ofText_eq]
  cases h with
  | unparsed hp => exact ⟨0, by rw [hp]; rfl⟩
  | misplaced hp hm he => exact ⟨0, by rw [hp, hm, he]; rfl⟩
  | listed hp hm hl => exact ⟨0, by simp only [hp, hm, if_pos hl]; rfl⟩
  | @played image shown ending hp hm hl hf =>
    have hi := idle_started image o typed
    have he := endsAfter hc hf.shows rfl hi 0
    rw [EndsAfter, turn_zero hi] at he
    obtain ⟨fuel, ⟨ending', y⟩, hs⟩ := he rfl
    obtain ⟨shown', hshows, hprinted⟩ := session?_started hs
    obtain ⟨rfl, rfl⟩ := hf.shows.unique hshows
    refine ⟨fuel, ?_⟩
    simp only [hp, hm, if_neg hl, outcome?_play, hs, Option.map_some, hprinted]

theorem Reports.unique (h : Reports o text typed r) (h' : Reports o text typed r') : r = r' := by
  cases h with
  | unparsed hp =>
    cases h' with
    | unparsed hp' => cases hp.symm.trans hp'; rfl
    | misplaced hp' | listed hp' | played hp' => cases hp.symm.trans hp'
  | misplaced hp hm he =>
    cases h' with
    | unparsed hp' => cases hp.symm.trans hp'
    | misplaced _ hm' he' => cases hm.symm.trans hm'; rw [he, he']
    | listed _ hm' | played _ hm' => cases hm.symm.trans hm'
  | listed hp hm hl =>
    cases h' with
    | unparsed hp' => cases hp.symm.trans hp'
    | misplaced _ hm' => cases hm.symm.trans hm'
    | listed hp' => cases hp.symm.trans hp'; rfl
    | played _ _ hl' => exact absurd hl hl'
  | played hp hm hl hf =>
    cases h' with
    | unparsed hp' => cases hp.symm.trans hp'
    | misplaced _ hm' => cases hm.symm.trans hm'
    | listed _ _ hl' => exact absurd hl' hl
    | played hp' _ _ hf' =>
      cases hp.symm.trans hp'
      obtain ⟨rfl, rfl⟩ := hf.shows.unique hf'.shows
      rfl

theorem Reports.with_cycles {n : Nat} (h : Reports o text typed r) :
    Reports { o with cycles := n } text typed r := by
  cases h with
  | unparsed hp => exact .unparsed hp
  | misplaced hp hm he => exact .misplaced hp hm he
  | listed hp hm hl => exact .listed hp hm hl
  | played hp hm hl hf => exact .played hp hm hl hf

theorem Reports.of_cycles {n : Nat} (h : Reports { o with cycles := n } text typed r) :
    Reports o text typed r := by
  have ho : Reports { o with cycles := o.cycles } text typed r := h.with_cycles
  exact ho

end

/-- Whatever limit there is on the length of a turn, the command reports the same. Unless the limit
is zero, it does report what there is to report. -/
theorem outcome_reports (o : Options) (text : String) (typed : List UInt8) :
    let task n := Task.ofFile { o with cycles := n } (.ok text.toUTF8)
    (∀ n fuel r, (task n).outcome? fuel typed = some r → Reports o text typed r) ∧
    (∀ r r', Reports o text typed r → Reports o text typed r' → r = r') ∧
    ∀ n r, 0 < n → Reports o text typed r → ∃ fuel, (task n).outcome? fuel typed = some r := by
  intro task
  have htask (n : Nat) : task n = Task.ofText { o with cycles := n } text := ofFile_text _ text
  refine ⟨fun n fuel r h ↦ ?_, fun r r' ↦ Reports.unique, fun n r hn h ↦ ?_⟩
  · rw [htask] at h
    exact (Reports.of_outcome? h).of_cycles
  · rw [htask]
    exact h.with_cycles.exists_outcome? hn

/-- Two words are read and put out, the first from the queue and the second from the console. -/
def echo : Options where
  program := "echo"
  inputs := [7]
  patches := [⟨2, 4⟩, ⟨9, 0⟩]
  list := false
  cycles := 5000
  verbosity := 0

def echoText : String := "3,9,99,9,3,9,4,9,99,1"

/-- With one line typed both words are put out. With none the second one is asked for in vain, after
the first has been put out. -/
theorem outcome_reports_of_echo :
    let task n := Task.ofFile { echo with cycles := n } (.ok echoText.toUTF8)
    let done : Outcome := { exitCode := 0, stdout := "7\n?? 5\n", stderr := "" }
    let failed : Outcome :=
      { exitCode := 1
        stdout := "7\n?? "
        stderr := "\x1b[1mINVALID INPUT; END OF INPUT AT 4\x1b[0m\n" }
    (Reports echo echoText [53, 10] done ∧
      ∀ n, 0 < n → ∃ fuel, (task n).outcome? fuel [53, 10] = some done) ∧
    Reports echo echoText [] failed ∧
      ∀ n, 0 < n → ∃ fuel, (task n).outcome? fuel [] = some failed := by
  intro task done failed
  have hdone : Reports echo echoText [53, 10] done :=
    (outcome_reports echo echoText [53, 10]).1 2 5 done rfl
  have hfailed : Reports echo echoText [] failed :=
    (outcome_reports echo echoText []).1 2 5 failed rfl
  exact ⟨⟨hdone, fun n hn ↦ (outcome_reports echo echoText [53, 10]).2.2 n done hn hdone⟩,
    hfailed, fun n hn ↦ (outcome_reports echo echoText []).2.2 n failed hn hfailed⟩

end Intcode.CommandLine
