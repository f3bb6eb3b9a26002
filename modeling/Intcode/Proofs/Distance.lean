import Intcode.Proofs.Counter
import Intcode.Proofs.Encoding

namespace Intcode

/-- An instruction whose result is no word adds, multiplies or adjusts the base. -/
theorem Processor.opcode_of_unfit {p : Processor} {i : Instruction} {e : Failure}
    (he : some e ∈ p.hazardsOf i) (hk : e.kind = .overflow) :
    i.opcode ∈ [Opcode.binary .add, .binary .multiply, .adjustBase] := by
  have hmisplaced (o : Operand) : o.misplaced? p.base ≠ some e := by
    intro hm
    have hkind := o.misplaced?_kind p.base
    rw [hm, Option.map_some, hk] at hkind
    split at hkind <;> cases hkind
  have hread (o : Operand) : some e ≠ o.unreadable? p.base := by
    intro hr
    unfold Operand.unreadable? at hr
    split at hr
    · cases hr
    · exact hmisplaced o hr.symm
  have hwrite (o : Operand) : some e ≠ o.unwritable? p.base := by
    intro hw
    unfold Operand.unwritable? at hw
    split at hw
    · cases hw
      cases hk
    · exact hmisplaced o hw.symm
  cases i with
  | binary op left right dest =>
    cases op with
    | add | multiply => simp [Instruction.opcode]
    | lessThan | equals =>
      simp [Processor.hazardsOf, BinaryOp.unfit?, hread, hwrite] at he
  | adjustBase offset => simp [Instruction.opcode]
  | input dest => simp [Processor.hazardsOf, hwrite] at he
  | output source => simp [Processor.hazardsOf, hread] at he
  | jumpIf on test dest =>
    simp only [Processor.hazardsOf, List.mem_cons, List.not_mem_nil, or_false, hread,
      false_or] at he
    split at he
    · exact absurd he (hread dest)
    · cases he
  | halt => simp [Processor.hazardsOf] at he

namespace Machine

variable {π : Type}

/-- The counter as a word. -/
def here (m : Machine π) : Word := Int64.ofNat m.pos

/-- How far it is to the target of a jump, if that is a word. -/
def wayTo (m : Machine π) (target : Word) : Except Failure Word :=
  match Word.ofInt? (target.toInt - m.here.toInt) with
  | some distance => .ok distance
  | none => .error (.outOfBounds target.toInt)

/-- How far an instruction moves the counter that does not halt. -/
def distance (m : Machine π) (i : Instruction) : Except Failure Word :=
  match i with
  | .jumpIf on test dest =>
    if (test.content m.store m.base != 0) = on then m.wayTo (dest.content m.store m.base)
    else .ok (Int64.ofNat i.width)
  | _ => .ok (Int64.ofNat i.width)

/-- Moves the counter by a distance, to a place that has to be a word as well. -/
def moveBy (m : Machine π) (distance : Word) : Except Failure Bool × Machine π :=
  match Word.ofInt? (m.here.toInt + distance.toInt) with
  | some next => m.arrive next.toInt
  | none => m.fail (Failure.overflow.locate m.pos)

/-- What a machine does with an instruction if it moves by distances and not to places. -/
def carryOutBy [Producer π] (m : Machine π) (i : Instruction) : Except Failure Bool × Machine π :=
  match (m.hazardsOf i).findSome? id, m.wordFor i with
  | some e, _ => m.fail (e.locate m.pos)
  | none, (.error e, n) => n.fail (e.locate m.pos)
  | none, (.ok v, n) =>
    if i = .halt then (.ok false, { m with status := .halted })
    else
      match m.distance i with
      | .error e => n.fail (e.locate m.pos)
      | .ok d => { n with toProcessor := m.completed i v }.moveBy d

section
variable {m n : Machine π} {i : Instruction} {d : Word} {e : Failure} {v : Word}

theorem toInt_here (hpos : m.pos < m.store.size) (hsize : Word.Fits m.store.size) :
    m.here.toInt = m.pos := by
  have hu := hsize.2
  exact Int64.toInt_ofNat_of_lt (by omega)

theorem moveBy_of_fits (h : Word.Fits (m.here.toInt + d.toInt)) :
    m.moveBy d = m.arrive (m.here.toInt + d.toInt) := by
  rw [moveBy, Word.ofInt?_of_fits h]
  dsimp only
  rw [Word.toInt_ofInt_of_fits h]

theorem arrive_of_outside {next : Int} (h : ¬(0 ≤ next ∧ next < m.store.size)) :
    m.arrive next = m.fail ((Failure.outOfBounds next).locate m.pos) := if_neg h

theorem toInt_width (i : Instruction) : (Int64.ofNat i.width).toInt = i.width := by
  have hle := i.opcode.arity_le
  exact Int64.toInt_ofNat_of_lt (by rw [Instruction.width, Opcode.width]; omega)

/-- A target that no distance leads to lies in front of the memory. -/
theorem wayTo_cases (hpos : m.pos < m.store.size) (hsize : Word.Fits m.store.size) (t : Word) :
    (∃ d, m.wayTo t = .ok d ∧ t.toInt = m.here.toInt + d.toInt) ∨
      m.wayTo t = .error (.outOfBounds t.toInt) ∧ t.toInt < 0 := by
  have hhere := toInt_here hpos hsize
  rw [wayTo]
  by_cases hf : Word.Fits (t.toInt - m.here.toInt)
  · refine .inl ⟨_, by rw [Word.ofInt?_of_fits hf], ?_⟩
    rw [Word.toInt_ofInt_of_fits hf]
    omega
  · refine .inr ⟨by rw [Word.ofInt?_of_not_fits hf], ?_⟩
    have ht := t.fits_toInt
    unfold Word.Fits at hf ht hsize
    omega

theorem distance_cases (hpos : m.pos < m.store.size) (hsize : Word.Fits m.store.size)
    (i : Instruction) :
    (∃ d, m.distance i = .ok d ∧ m.successor i = m.here.toInt + d.toInt) ∨
      m.distance i = .error (.outOfBounds (m.successor i)) ∧ m.Jumps i ∧ m.successor i < 0 := by
  have hwidth (hd : m.distance i = .ok (Int64.ofNat i.width))
      (hs : m.successor i = (m.pos + i.width : Nat)) :
      ∃ d, m.distance i = .ok d ∧ m.successor i = m.here.toInt + d.toInt := by
    refine ⟨_, hd, ?_⟩
    rw [hs, toInt_here hpos hsize, toInt_width, Int.natCast_add]
  cases i with
  | binary | input | output | adjustBase | halt => exact .inl (hwidth rfl rfl)
  | jumpIf on test dest =>
    by_cases ht : (test.content m.store m.base != 0) = on
    · have hd : m.distance (.jumpIf on test dest) = m.wayTo (dest.content m.store m.base) :=
        if_pos ht
      have hs : m.successor (.jumpIf on test dest) = (dest.content m.store m.base).toInt :=
        if_pos ht
      rw [hd, hs]
      rcases wayTo_cases hpos hsize (dest.content m.store m.base) with hway | ⟨hway, hneg⟩
      · exact .inl hway
      · exact .inr ⟨hway, ⟨on, test, dest, rfl, ht⟩, hneg⟩
    · exact .inl (hwidth (if_neg ht) (if_neg ht))

/-- An instruction leads to a word, be it inside the image or not. -/
theorem fits_successor (hd : Instruction.decode m.store m.pos = .ok i)
    (hsize : Word.Fits m.store.size) : Word.Fits (m.successor i) := by
  by_cases hj : m.Jumps i
  · obtain ⟨on, test, dest, rfl, ht⟩ := hj
    rw [Processor.successor, if_pos ht]
    exact Word.fits_toInt _
  · have hle := (Instruction.decode_eq_ok_iff.mp hd).2.1
    have hu := hsize.2
    rw [Processor.successor_of_not_jumps hj]
    exact ⟨by omega, by omega⟩

variable [Producer π]

theorem carryOutBy_of_ne_halt (hh : (m.hazardsOf i).findSome? id = none)
    (ht : m.wordFor i = (.ok v, n)) (hi : i ≠ .halt) : m.carryOutBy i =
      match m.distance i with
      | .error e => n.fail (e.locate m.pos)
      | .ok d => { n with toProcessor := m.completed i v }.moveBy d := by
  rw [carryOutBy, hh, ht]
  exact if_neg hi

/-- A machine that moves by distances does the same as one that moves to places. -/
theorem carryOutBy_eq (hd : Instruction.decode m.store m.pos = .ok i)
    (hsize : Word.Fits m.store.size) : m.carryOutBy i = m.carryOut i := by
  have hpos := Processor.pos_lt_of_decode hd
  cases hh : (m.hazardsOf i).findSome? id with
  | some e => rw [carryOutBy, carryOut, hh]
  | none =>
    rcases ht : m.wordFor i with ⟨e | v, n⟩
    · rw [carryOutBy, carryOut, hh, ht]
    · by_cases hi : i = .halt
      · subst hi
        rfl
      · rw [carryOutBy_of_ne_halt hh ht hi, carryOut_of_ne_halt hh ht hi]
        obtain ⟨hcsize, hcpos, -⟩ := Processor.completed_frame (p := m.toProcessor) (i := i) v
        rcases distance_cases hpos hsize i with ⟨d, hdist, hs⟩ | ⟨hdist, hj, hneg⟩
        · have hf := fits_successor hd hsize
          rw [hs] at hf
          have hhere : here { n with toProcessor := m.completed i v } = m.here :=
            congrArg Int64.ofNat hcpos
          rw [hdist, hs]
          dsimp only
          rw [moveBy_of_fits (by rwa [hhere]), hhere]
        · -- a jump has changed nothing, wherever it is refused
          have hn : n = m := by
            obtain ⟨on, test, dest, rfl, -⟩ := hj
            cases ht
            rfl
          subst hn
          rw [hdist, Processor.completed_of_jumps hj]
          exact (arrive_of_outside fun hin ↦ Int.not_le.mpr hneg hin.1).symm

theorem step_of_jump {on : Bool} {test dest : Operand} {x t : Word} (h : m.status = .running)
    (hd : Instruction.decode m.store m.pos = .ok (.jumpIf on test dest))
    (hx : test.value m.store m.base = .ok x) (ht : (x != 0) = on)
    (hy : dest.value m.store m.base = .ok t) : m.step = m.arrive t.toInt := by
  have hf : m.planFor (.jumpIf on test dest) = .ok (.act .none t.toInt) :=
    Processor.planFor_eq_ok_iff.mpr (.jump hx ht hy)
  exact step_of_acts h (.act (Processor.plan_eq_ok_iff.mpr ⟨_, hd, hf⟩))

/-- A result that is no word is that of an instruction that has a result, or else the producer has
answered in this way. -/
theorem overflow_cases (h : m.status = .running) (hs : m.step = (.error e, n))
    (hk : e.kind = .overflow) :
    (∃ f, m.consulted? = some (.error f) ∧ e = f.locate m.pos) ∨
      ∃ i, Instruction.decode m.store m.pos = .ok i ∧
        i.opcode ∈ [Opcode.binary .add, .binary .multiply, .adjustBase] := by
  cases step_eq_iff.mp hs with
  | fault | leave => cases hk
  | stuck _ hp =>
    cases hd : Instruction.decode m.store m.pos with
    | ok i =>
      rw [plan_of_decode hd, mapError_guarded_eq_error_iff] at hp
      obtain ⟨f, hf, rfl⟩ := hp
      obtain ⟨a, ha, rfl⟩ := List.exists_of_findSome?_eq_some hf
      exact .inr ⟨i, rfl, Processor.opcode_of_unfit ha hk⟩
    | error f =>
      rw [Processor.plan, hd] at hp
      split at hp
      · cases hp
        cases hk.symm.trans (Instruction.decode_fails m.store m.pos f hd).1
      · cases hp
        cases hk
  | @refused _ _ _ f _ hp ht =>
    rcases consulted?_of_refused h hp ht with hc | hi
    · exact .inl ⟨f, hc, by rw [(takeInput_frame ht).2]⟩
    · cases hi.symm.trans hk

/-- A jump to any word leads there or is refused for it, and leaves all else as it is. That it goes
by a distance makes no difference, since this is a word whenever the target is an address, and added
to the counter never comes to more than a word. Only of adding, multiplying and adjusting the base
may the result be no word. -/
theorem distances_lossless (h : m.status = .running) (hpos : m.pos < m.store.size)
    (hsize : Word.Fits m.store.size) :
    (∀ on test dest x t, Instruction.decode m.store m.pos = .ok (.jumpIf on test dest) →
      test.value m.store m.base = .ok x → (x != 0) = on → dest.value m.store m.base = .ok t →
      (0 ≤ t.toInt ∧ t.toInt < m.store.size →
        m.step = (.ok true, { m with pos := t.toInt.toNat })) ∧
      (¬(0 ≤ t.toInt ∧ t.toInt < m.store.size) → m.step =
        m.fail { kind := .counter, note := "", value := some t, address := some m.pos }) ∧
      (t.toInt = m.pos → m.step = (.ok true, m)) ∧
      (∀ d, m.wayTo t = .ok d → m.step = m.moveBy d) ∧
      ∀ f, m.wayTo t = .error f → m.step = m.fail (f.locate m.pos)) ∧
    (∀ i, Instruction.decode m.store m.pos = .ok i → m.step = m.carryOutBy i ∧
      ∀ d, m.distance i = .ok d → Word.Fits (m.here.toInt + d.toInt)) ∧
    ∀ e n, m.step = (.error e, n) → e.kind = .overflow →
      (∃ f, m.consulted? = some (.error f) ∧ e = f.locate m.pos) ∨
        ∃ i, Instruction.decode m.store m.pos = .ok i ∧
          i.opcode ∈ [Opcode.binary .add, .binary .multiply, .adjustBase] := by
  refine ⟨fun on test dest x t hd hx ht hy ↦ ?_, fun i hd ↦ ⟨?_, fun d hdist ↦ ?_⟩,
    fun e n hs hk ↦ overflow_cases h hs hk⟩
  · have hstep := step_of_jump h hd hx ht hy
    refine ⟨fun hin ↦ ?_, fun hout ↦ ?_, fun hself ↦ ?_, fun d hway ↦ ?_, fun f hway ↦ ?_⟩
    · rw [hstep, arrive, if_pos hin]
    · rw [hstep, arrive_of_outside hout, Failure.outOfBounds, Int64.ofInt_toInt]
      rfl
    · rw [hstep, hself, arrive, if_pos ⟨Int.natCast_nonneg _, Int.ofNat_lt.mpr hpos⟩]
      rfl
    · rcases wayTo_cases hpos hsize t with ⟨d', hd', ht'⟩ | ⟨he, -⟩
      · cases hway.symm.trans hd'
        rw [hstep, ht', moveBy_of_fits (ht' ▸ t.fits_toInt)]
      · cases hway.symm.trans he
    · rcases wayTo_cases hpos hsize t with ⟨d', hd', -⟩ | ⟨he, hneg⟩
      · cases hway.symm.trans hd'
      · cases hway.symm.trans he
        rw [hstep, arrive_of_outside fun hin ↦ Int.not_le.mpr hneg hin.1]
  · rw [carryOutBy_eq hd hsize, step_of_decode h hd]
  · rcases distance_cases hpos hsize i with ⟨d', hd', hs⟩ | ⟨he, -⟩
    · cases hdist.symm.trans hd'
      rw [← hs]
      exact fits_successor hd hsize
    · cases hdist.symm.trans he

end

/-- A jump to the least word there is, from a place other than the first. -/
def plunge : Machine Empty := { load [99, 1105, 1, -9223372036854775808] with pos := 1 }

theorem distances_lossless_of_plunge :
    let i : Instruction := .jumpIf true ⟨1, .immediate⟩ ⟨-9223372036854775808, .immediate⟩
    plunge.wayTo (-9223372036854775808) = .error (.outOfBounds (-9223372036854775808)) ∧
      plunge.step = plunge.carryOutBy i ∧
      plunge.step = plunge.fail
        { kind := .counter, value := some (-9223372036854775808), address := some 1 } := by
  intro i
  have hd : Instruction.decode plunge.store plunge.pos = .ok i := rfl
  obtain ⟨hjump, hmoves, -⟩ := distances_lossless (m := plunge) rfl (by decide) (by decide)
  obtain ⟨-, hout, -⟩ := hjump true ⟨1, .immediate⟩ ⟨-9223372036854775808, .immediate⟩ 1
    (-9223372036854775808) hd rfl rfl rfl
  exact ⟨rfl, (hmoves i hd).1, hout (by decide)⟩

end Machine

end Intcode
