import Intcode.Proofs.Execution

namespace Intcode

namespace Operand

variable {o : Operand} {s : Store} {base w : Word}

theorem content_of_value (h : o.value s base = .ok w) : o.content s base = w := by
  rw [value_eq] at h
  cases hu : o.unreadable? base with
  | none => rw [hu] at h; exact Except.ok.inj h
  | some e => rw [hu] at h; cases h

end Operand

/-- Inside the image an instruction may fail in many ways, but not for want of a cell. -/
theorem Processor.plan_fails_inside {p : Processor} (h : p.pos < p.store.size) :
    FailsAs (fun e ↦ e.kind ≠ .counter) p.plan := by
  have hdecode : FailsAs (fun e ↦ e.kind ≠ .counter) (Instruction.decode p.store p.pos) := by
    intro e he hk
    cases hk.symm.trans (Instruction.decode_fails p.store p.pos e he).1
  have hplan (i : Instruction) : FailsAs (fun e ↦ e.kind ≠ .counter) (p.planFor i) := by
    intro e he hk
    rcases p.planFor_fails i e he with h | h | h <;> cases hk.symm.trans h
  rw [plan, if_pos h]
  exact FailsAs.mapError (.bind hdecode hplan) fun _ hk ↦ hk

namespace Machine

variable {π : Type}

/-- The counter where there is no cell for it: the one that the machine is at, the one after its
instruction, or the target of a jump. -/
inductive Strays (m : Machine π) : Int → Prop
  | start (h : m.store.size ≤ m.pos) : Strays m m.pos
  | past {i : Instruction} (hd : Instruction.decode m.store m.pos = .ok i) (hj : ¬m.Jumps i)
      (hn : m.pos + i.width = m.store.size) : Strays m (m.pos + i.width : Nat)
  | jump {on : Bool} {test dest : Operand} {t : Word}
      (hd : Instruction.decode m.store m.pos = .ok (.jumpIf on test dest))
      (hj : m.Jumps (.jumpIf on test dest)) (ht : dest.value m.store m.base = .ok t)
      (hn : ¬(0 ≤ t.toInt ∧ t.toInt < m.store.size)) : Strays m t.toInt

variable [Producer π] {m n : Machine π} {e : Failure} {counter : Int}

omit [Producer π] in
theorem strays_of_straight {i : Instruction} (hd : Instruction.decode m.store m.pos = .ok i)
    (hj : ¬m.Jumps i)
    (hout : ¬(0 ≤ ((m.pos + i.width : Nat) : Int) ∧
      ((m.pos + i.width : Nat) : Int) < m.store.size)) :
    m.Strays (m.pos + i.width : Nat) := by
  have hle := (Instruction.decode_eq_ok_iff.mp hd).2.1
  exact .past hd hj (by omega)

theorem strays_of_acts (ha : Acts m n counter)
    (hout : ¬(0 ≤ counter ∧ counter < m.store.size)) : m.Strays counter := by
  have hstraight {i : Instruction} (hi : ∀ on test dest, i ≠ .jumpIf on test dest) : ¬m.Jumps i :=
    fun ⟨on, test, dest, he, _⟩ ↦ hi on test dest he
  cases ha with
  | act hp =>
    obtain ⟨i, hd, hf⟩ := Processor.plan_eq_ok_iff.mp hp
    cases Processor.planFor_eq_ok_iff.mp hf with
    | write | emit | rebase => exact strays_of_straight hd (hstraight nofun) hout
    | jump hx ht hy =>
      exact .jump hd ⟨_, _, _, rfl, by rwa [Operand.content_of_value hx]⟩ hy hout
    | pass hx ht =>
      refine strays_of_straight hd (fun hj ↦ ?_) hout
      obtain ⟨on, test, dest, he, hj⟩ := hj
      cases he
      rw [Operand.content_of_value hx] at hj
      exact ht hj
  | read hp ht =>
    obtain ⟨i, hd, hf⟩ := Processor.plan_eq_ok_iff.mp hp
    cases Processor.planFor_eq_ok_iff.mp hf with
    | request => exact strays_of_straight hd (hstraight nofun) hout

/-- A word that is refused is refused by the producer, or for want of input. -/
theorem consulted?_of_refused {address : Nat} {next : Int} (h : m.status = .running)
    (hp : m.plan = .ok (.request address next)) (ht : m.takeInput = (.error e, n)) :
    m.consulted? = some (.error e) ∨ e.kind = .input := by
  have hr : m.refusal? = some e := by rw [refusal?_eq, ht]; rfl
  obtain ⟨hi, ⟨s, hs, ha⟩ | ⟨-, hk⟩⟩ := kind_of_refusal? hr
  · left
    rw [consulted?, Processor.inputTarget?_of_plan h hp, hi, hs, ← ha]
    rfl
  · exact .inr hk

theorem exists_strays (hs : m.step = (.error e, n)) (hk : e.kind = .counter)
    (hq : ∀ f, m.consulted? = some (.error f) → f.kind ≠ .counter) :
    ∃ counter, m.Strays counter ∧ e = (Failure.outOfBounds counter).locate m.pos := by
  cases step_eq_iff.mp hs with
  | fault => cases hk
  | stuck h hp =>
    by_cases hpos : m.pos < m.store.size
    · exact absurd hk (Processor.plan_fails_inside hpos e hp)
    · rw [Processor.plan, if_neg hpos] at hp
      cases hp
      exact ⟨m.pos, .start (Nat.le_of_not_lt hpos), rfl⟩
  | @refused _ _ _ f h hp ht =>
    have hf : f.kind = .counter := hk
    rcases consulted?_of_refused h hp ht with hc | hi
    · exact absurd hf (hq f hc)
    · cases hf.symm.trans hi
  | @leave m' next h ha hout =>
    obtain ⟨hsize, hpos⟩ := ha.frame
    rw [hsize] at hout
    exact ⟨next, strays_of_acts ha hout, by rw [hpos]⟩

omit [Producer π] in
/-- A counter that is no word is the one that the machine was started at. -/
theorem Strays.eq_pos (h : m.Strays counter) (hsize : Word.Fits m.store.size)
    (hf : ¬Word.Fits counter) : counter = m.pos := by
  cases h with
  | start => rfl
  | past hd hj hn => exact absurd (hn ▸ hsize) hf
  | jump => exact absurd (Word.fits_toInt _) hf

omit [Producer π] in
theorem Strays.fits_iff (h : m.Strays counter) (hsize : Word.Fits m.store.size) :
    Word.Fits counter ↔ Word.Fits m.pos := by
  cases h with
  | start => exact Iff.rfl
  | past hd hj hn =>
    have hlt := Processor.pos_lt_of_decode hd
    rw [hn]
    refine iff_of_true hsize ?_
    unfold Word.Fits at hsize ⊢
    omega
  | jump hd =>
    have hlt := Processor.pos_lt_of_decode hd
    refine iff_of_true (Word.fits_toInt _) ?_
    unfold Word.Fits at hsize ⊢
    omega

/-- A machine that leaves its image reports where it was and where it was to go, as long as it was
not started so far past the image that this is no word. -/
theorem counter_reported (hsize : Word.Fits m.store.size) (hs : m.step = (.error e, n))
    (hk : e.kind = .counter) (hq : ∀ f, m.consulted? = some (.error f) → f.kind ≠ .counter) :
    ∃ counter v, m.Strays counter ∧
      e = { kind := .counter, value := some v, address := some m.pos } ∧
      (v.toInt = counter ↔ Word.Fits m.pos) ∧
      (¬Word.Fits m.pos → counter = m.pos ∧ v = Int64.ofInt m.pos) ∧
      (v.toInt < 0 → Word.Fits m.pos → ∃ on test dest,
        Instruction.decode m.store m.pos = .ok (.jumpIf on test dest) ∧
        m.Jumps (.jumpIf on test dest) ∧ dest.value m.store m.base = .ok v) := by
  obtain ⟨counter, hc, rfl⟩ := exists_strays hs hk hq
  have hfits := hc.fits_iff hsize
  refine ⟨counter, _, hc, rfl, ⟨fun hv ↦ ?_, fun hp ↦ ?_⟩, fun hp ↦ ?_, fun hneg hp ↦ ?_⟩
  · rw [← hfits, ← hv]
    exact Word.fits_toInt _
  · exact Word.toInt_ofInt_of_fits (hfits.mpr hp)
  · have he := hc.eq_pos hsize (mt hfits.mp hp)
    exact ⟨he, by rw [he]⟩
  · rw [Word.toInt_ofInt_of_fits (hfits.mpr hp)] at hneg
    cases hc with
    | start | past => omega
    | jump hd hj ht => exact ⟨_, _, _, hd, hj, by rw [ht, Int64.ofInt_toInt]⟩

/-- A jump to an address in front of the memory. -/
theorem counter_reported_of_backward : ∃ (n : Machine Empty) (e : Failure),
    (load [1105, 1, -5]).step = (.error e, n) ∧ (load [1105, 1, -5] : Machine Empty).Strays (-5) ∧
      e = { kind := .counter, value := some (-5), address := some 0 } := by
  obtain ⟨n, e, hs, he⟩ : ∃ (n : Machine Empty) (e : Failure),
      (load [1105, 1, -5]).step = (.error e, n) ∧
        e = { kind := .counter, value := some (-5), address := some 0 } := ⟨_, _, rfl, rfl⟩
  have hq (f : Failure) :
      (load [1105, 1, -5] : Machine Empty).consulted? = some (.error f) → f.kind ≠ .counter := by
    intro hc
    cases hc
  obtain ⟨counter, v, hc, he', hv, -⟩ := counter_reported (by decide) hs (by rw [he]) hq
  cases he.symm.trans he'
  have hcounter : -5 = counter := hv.mpr (by decide)
  exact ⟨n, e, hs, by rwa [hcounter], he⟩

/-- The report of a counter that is no word. -/
theorem exists_counter_misreported : ¬∀ (m n : Machine Empty) (e : Failure),
    Word.Fits m.store.size → m.pos < 18446744073709551616 → m.step = (.error e, n) →
      e.kind = .counter → ∃ counter v, m.Strays counter ∧ e.value = some v ∧ v.toInt = counter := by
  intro h
  let m : Machine Empty := { (load [99] : Machine Empty) with pos := 9223372036854775808 }
  have hs : m.step = (.error ((Failure.outOfBounds 9223372036854775808).locate m.pos),
      { m with status := .failed ((Failure.outOfBounds 9223372036854775808).locate m.pos) }) := rfl
  obtain ⟨counter, v, hc, -, hv⟩ := h m _ _ (by decide) (by decide) hs rfl
  cases hc with
  | start =>
    have hle := Word.toInt_le v
    have hpos : (m.pos : Int) = 9223372036854775808 := rfl
    omega
  | past hd | jump hd => exact absurd (Processor.pos_lt_of_decode hd) (by decide)

end Machine

end Intcode
