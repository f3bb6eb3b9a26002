import Intcode.Proofs.Matches

namespace Intcode

open Unbounded

def Opcode.act : Opcode → Act
  | .binary op => .combine op.exact
  | .input => .input
  | .output => .output
  | .jumpIf true => .jump fun x ↦ x ≠ 0
  | .jumpIf false => .jump fun x ↦ x = 0
  | .adjustBase => .adjust
  | .halt => .halt

theorem Opcode.ofCode?_eq (n : Int) : Act.ofCode? n = (Opcode.ofNumber? n).map Opcode.act := by
  unfold Opcode.ofNumber?
  split
  case h_11 =>
    unfold Act.ofCode?
    split <;> first | contradiction | rfl
  all_goals rfl

theorem Opcode.arity_act (c : Opcode) : c.act.arity = c.arity := by
  cases c with
  | jumpIf on => cases on <;> rfl
  | binary | input | output | adjustBase | halt => rfl

namespace Processor

variable {p : Processor} {i : Instruction}

theorem mode_known_iff (k : Nat) :
    (p.unbounded.mode k = 0 ∨ p.unbounded.mode k = 1 ∨ p.unbounded.mode k = 2) ↔
      ∃ mode : Mode, Instruction.digitAt (p.store.get p.pos).toInt (k + 2) = mode.digit := by
  have hd : Instruction.digitAt (p.store.get p.pos).toInt (k + 2) = p.unbounded.mode k :=
    Instruction.digitAt_eq _ _
  rw [hd]
  exact Mode.exists_digit_iff.symm

theorem act?_eq_some_iff {act : Act} : p.unbounded.act? = some act ↔
    ∃ c, Opcode.ofNumber? ((p.store.get p.pos).toInt % 100) = some c ∧ c.act = act ∧
      p.pos + c.width ≤ p.store.size ∧ ∀ k < c.arity, ∃ mode : Mode,
        Instruction.digitAt (p.store.get p.pos).toInt (k + 2) = mode.digit := by
  have hcode : Act.ofCode? (p.unbounded.memory p.unbounded.pos % 100) = some act ↔
      ∃ c, Opcode.ofNumber? ((p.store.get p.pos).toInt % 100) = some c ∧ c.act = act := by
    rw [Opcode.ofCode?_eq, Option.map_eq_some_iff]
    exact Iff.rfl
  rw [Unbounded.act?_eq_some_iff, hcode]
  simp only [mode_known_iff]
  constructor
  · intro h
    obtain ⟨⟨c, hc, rfl⟩, hw, hm⟩ := h
    rw [Opcode.arity_act] at hw hm
    exact ⟨c, hc, rfl, hw, hm⟩
  · intro h
    obtain ⟨c, hc, rfl, hw, hm⟩ := h
    rw [Opcode.arity_act]
    exact ⟨⟨c, hc, rfl⟩, hw, hm⟩

theorem act?_of_decode (h : Instruction.decode p.store p.pos = .ok i) :
    p.unbounded.act? = some i.opcode.act := by
  obtain ⟨hc, -, -⟩ := Instruction.decode_eq_ok_iff.mp h
  obtain ⟨c, hc', hw, hm⟩ := Instruction.exists_decode_iff.mp ⟨i, h⟩
  cases hc.symm.trans hc'
  exact act?_eq_some_iff.mpr ⟨i.opcode, hc, rfl, hw, hm⟩

theorem act?_of_error {e : Failure} (h : Instruction.decode p.store p.pos = .error e) :
    p.unbounded.act? = none := by
  refine Option.eq_none_iff_forall_ne_some.mpr fun act ha ↦ ?_
  obtain ⟨c, hc, -, hw, hm⟩ := act?_eq_some_iff.mp ha
  obtain ⟨i, hi⟩ := Instruction.exists_decode_iff.mpr ⟨c, hc, hw, hm⟩
  cases h.symm.trans hi

theorem unbounded_write (p : Processor) (a : Nat) (v : Word) :
    (p.apply (.write a v)).unbounded = p.unbounded.write a v.toInt := by
  have hm (b : Nat) : ((p.store.set a v).get b).toInt =
      if a = b then v.toInt else (p.store.get b).toInt := by
    rw [Store.get_set]
    split <;> rfl
  simp only [unbounded, apply, Unbounded.write, Store.size_set, hm]
  rfl

theorem unbounded_emit (p : Processor) (v : Word) : (p.apply (.emit v)).unbounded =
    { p.unbounded with outputs := p.unbounded.outputs ++ [v.toInt] } := by
  simp only [unbounded, apply, List.map_append, List.map_cons, List.map_nil]
  rfl

/-- An instruction of the processor against what it comes to over the integers. -/
inductive Does (p : Processor) : Plan → Deed → Prop
  | halt : Does p .halt .halt
  | change {effect : Effect} {next : Int} {s : Unbounded} (h : (p.apply effect).unbounded = s) :
      Does p (.act effect next) (.change s next)
  | request {address : Nat} {next : Int} : Does p (.request address next) (.request address next)

theorem binary_matches {op : BinaryOp} {left right dest : Operand}
    (hl : Instruction.Holds p.store p.pos 0 left) (hr : Instruction.Holds p.store p.pos 1 right)
    (hd : Instruction.Holds p.store p.pos 2 dest) :
    Matches (Does p) (p.unbounded.workedOut (.combine op.exact))
      (p.planFor (.binary op left right dest)) (p.unbounded.perform? (.combine op.exact)) := by
  -- The numbers in the order in which the processor comes upon them.
  have hformed (s : Unbounded) (f : Int → Int → Int) : s.workedOut (.combine f) =
      [s.pointer 0] ++ ([s.pointer 1] ++
        ((do return f (← s.read? 0) (← s.read? 1) : Option Int).toList ++ [s.pointer 2])) := rfl
  rw [hformed]
  change Matches (Does p) _
    (left.value p.store p.base >>= fun x ↦ right.value p.store p.base >>= fun y ↦
      Word.exact (op.exact x.toInt y.toInt) >>= fun z ↦ dest.target p.base >>= fun a ↦
        .ok (.act (.write a z) (p.pos + 4 : Nat)))
    (p.unbounded.read? 0 >>= fun x ↦ p.unbounded.read? 1 >>= fun y ↦
      p.unbounded.target? 2 >>= fun a ↦
        some (.change (p.unbounded.write a (op.exact x y)) (p.pos + 4 : Nat)))
  refine hl.value_matches.bind fun w x hx hwx ↦ hr.value_matches.bind fun v y hy hvy ↦ ?_
  have hz : (do return op.exact (← p.unbounded.read? 0) (← p.unbounded.read? 1) : Option Int) =
      some (op.exact x y) := by
    rw [hx, hy]
    rfl
  rw [hz, hwx, hvy]
  refine (Word.exact_matches _).bind_some fun u hu ↦ ?_
  rw [← hu, ← List.append_nil [p.unbounded.pointer 2]]
  refine hd.target_matches.bind fun a b _ hab ↦ ?_
  subst hab
  exact .ok (.change (p.unbounded_write a u)) (by simp)

theorem input_matches {dest : Operand} (hd : Instruction.Holds p.store p.pos 0 dest) :
    Matches (Does p) (p.unbounded.workedOut .input) (p.planFor (.input dest))
      (p.unbounded.perform? .input) := by
  have hformed (s : Unbounded) : s.workedOut .input = [s.pointer 0] ++ [] := rfl
  rw [hformed]
  change Matches (Does p) _
    (dest.target p.base >>= fun a ↦ .ok (.request a (p.pos + 2 : Nat)))
    (p.unbounded.target? 0 >>= fun a ↦ some (.request a (p.pos + 2 : Nat)))
  refine hd.target_matches.bind fun a b _ hab ↦ ?_
  subst hab
  exact .ok .request (by simp)

theorem output_matches {source : Operand} (hs : Instruction.Holds p.store p.pos 0 source) :
    Matches (Does p) (p.unbounded.workedOut .output) (p.planFor (.output source))
      (p.unbounded.perform? .output) := by
  have hformed (s : Unbounded) : s.workedOut .output = [s.pointer 0] ++ [] := rfl
  rw [hformed]
  change Matches (Does p) _
    (source.value p.store p.base >>= fun x ↦ .ok (.act (.emit x) (p.pos + 2 : Nat)))
    (p.unbounded.read? 0 >>= fun x ↦
      some (.change { p.unbounded with outputs := p.unbounded.outputs ++ [x] } (p.pos + 2 : Nat)))
  refine hs.value_matches.bind fun w x _ hwx ↦ ?_
  subst hwx
  exact .ok (.change (p.unbounded_emit w)) (by simp)

theorem adjust_matches {offset : Operand} (ho : Instruction.Holds p.store p.pos 0 offset) :
    Matches (Does p) (p.unbounded.workedOut .adjust) (p.planFor (.adjustBase offset))
      (p.unbounded.perform? .adjust) := by
  have hformed (s : Unbounded) : s.workedOut .adjust =
      [s.pointer 0] ++ (((s.read? 0).map (s.base + ·)).toList ++ []) := by
    rw [List.append_nil]
    rfl
  rw [hformed]
  change Matches (Does p) _
    (offset.value p.store p.base >>= fun x ↦ Word.exact (p.base.toInt + x.toInt) >>= fun b ↦
      .ok (.act (.rebase b) (p.pos + 2 : Nat)))
    (p.unbounded.read? 0 >>= fun x ↦
      some (.change { p.unbounded with base := p.base.toInt + x } (p.pos + 2 : Nat)))
  refine ho.value_matches.bind fun w x hx hwx ↦ ?_
  subst hwx
  rw [hx]
  refine (Word.exact_matches _).bind_some fun u hu ↦ ?_
  have hbase : u.toInt = p.base.toInt + w.toInt := hu
  rw [← hbase]
  exact .ok (.change rfl) (by simp)

theorem jump_matches {on : Bool} {taken : Int → Bool} {test dest : Operand}
    (htaken : ∀ w : Word, (w != 0) = on ↔ taken w.toInt = true)
    (ht : Instruction.Holds p.store p.pos 0 test) (hd : Instruction.Holds p.store p.pos 1 dest) :
    Matches (Does p) (p.unbounded.workedOut (.jump taken)) (p.planFor (.jumpIf on test dest))
      (p.unbounded.perform? (.jump taken)) := by
  have hformed (s : Unbounded) : s.workedOut (.jump taken) =
      [s.pointer 0] ++ if (s.read? 0).any taken then [s.pointer 1] ++ [] else [] := rfl
  rw [hformed]
  change Matches (Does p) _
    (test.value p.store p.base >>= fun x ↦
      if (x != 0) = on then dest.value p.store p.base >>= fun y ↦ .ok (.act .none y.toInt)
      else .ok (.act .none (p.pos + 3 : Nat)))
    (p.unbounded.read? 0 >>= fun x ↦
      if taken x then p.unbounded.read? 1 >>= fun y ↦ some (.change p.unbounded y)
      else some (.change p.unbounded (p.pos + 3 : Nat)))
  refine ht.value_matches.bind fun w x hx hwx ↦ ?_
  subst hwx
  rw [hx, Option.any_some]
  by_cases htrue : taken w.toInt = true
  · rw [if_pos htrue, if_pos htrue, if_pos ((htaken w).mpr htrue)]
    refine hd.value_matches.bind fun v y _ hvy ↦ ?_
    subst hvy
    exact .ok (.change rfl) (by simp)
  · rw [if_neg htrue, if_neg htrue, if_neg fun h ↦ htrue ((htaken w).mp h)]
    exact .ok (.change rfl) (by simp)

theorem planFor_matches (h : ∀ k o, i.operands[k]? = some o → Instruction.Holds p.store p.pos k o) :
    Matches (Does p) (p.unbounded.workedOut i.opcode.act) (p.planFor i)
      (p.unbounded.perform? i.opcode.act) := by
  have hzero (w : Word) : w = 0 ↔ w.toInt = 0 := by
    rw [← Int64.toInt_inj, Int64.toInt_zero]
  cases i with
  | halt => exact .ok .halt (by simp [workedOut, Instruction.opcode, Opcode.act])
  | binary op left right dest => exact binary_matches (h 0 left rfl) (h 1 right rfl) (h 2 dest rfl)
  | input dest => exact input_matches (h 0 dest rfl)
  | output source => exact output_matches (h 0 source rfl)
  | adjustBase offset => exact adjust_matches (h 0 offset rfl)
  | jumpIf on test dest =>
    cases on with
    | true => exact jump_matches (by simp [hzero]) (h 0 test rfl) (h 1 dest rfl)
    | false => exact jump_matches (by simp [hzero]) (h 0 test rfl) (h 1 dest rfl)

theorem plan_matches (h : p.status = .running) : Matches (Does p) p.unbounded.formed p.plan
    (p.unbounded.act? >>= p.unbounded.perform?) := by
  rw [plan, formed, unbounded_of_running h]
  refine Matches.locate ?_ p.pos
  cases hd : Instruction.decode p.store p.pos with
  | error e =>
    rw [act?_of_error hd]
    by_cases hpos : p.pos < p.store.size
    · rw [if_pos hpos]
      exact .stuck
    · rw [if_neg hpos]
      exact .stuck
  | ok i =>
    obtain ⟨-, hw, ho⟩ := Instruction.decode_eq_ok_iff.mp hd
    have hpos : p.pos < p.store.size := by
      have := i.width_pos
      omega
    rw [act?_of_decode hd, if_pos hpos]
    exact planFor_matches ho

end Processor

namespace Machine

variable {π : Type} [Producer π] {m m' : Machine π}

omit [Producer π] in
theorem goto?_eq_some_iff {next : Int} {t : Unbounded} (h : m.status = .running) :
    m.unbounded.goto? next = some t ↔
      ∃ m', m.arrive next = (.ok (!t.halted), m') ∧ m'.unbounded = t := by
  have hsize : m.unbounded.size = m.store.size := rfl
  have halted : m.unbounded.halted = false := Processor.unbounded_of_running h
  rw [Unbounded.goto?, arrive, hsize]
  split
  · constructor
    · intro ht
      cases ht
      exact ⟨_, by rw [halted]; rfl, rfl⟩
    · intro ht
      obtain ⟨m', hm, rfl⟩ := ht
      obtain ⟨-, rfl⟩ := Prod.mk.inj hm
      rfl
  · constructor
    · intro ht
      cases ht
    · intro ht
      obtain ⟨m', hm, -⟩ := ht
      cases hm

theorem take?_reply : m.unbounded.take? m.reply = match m.takeInput with
    | (.ok v, m') => some (v.toInt, m'.unbounded)
    | (.error _, _) => none := by
  have hm := m.takeInput_toProcessor
  cases hi : m.inputs with
  | cons v vs =>
    have hq : m.unbounded.inputs = v.toInt :: vs.map Int64.toInt := by
      rw [Processor.unbounded, hi, List.map_cons]
    rw [takeInput_of_queued hi, Unbounded.take?, hq]
    rfl
  | nil =>
    have hq : m.unbounded.inputs = [] := by rw [Processor.unbounded, hi, List.map_nil]
    rw [Unbounded.take?, hq, reply]
    rcases ht : m.takeInput with ⟨e | v, n⟩
    · rfl
    · rw [ht, hi, List.tail_nil, ← hi] at hm
      change some (v.toInt, m.unbounded) = some (v.toInt, n.toProcessor.unbounded)
      rw [hm]

theorem carry?_eq_some_iff {plan : Plan} {deed : Unbounded.Deed} {t : Unbounded}
    (h : m.status = .running) (hp : m.plan = .ok plan) (hd : m.Does plan deed) :
    m.unbounded.carry? m.reply deed = some t ↔
      ∃ m', m.step = (.ok (!t.halted), m') ∧ m'.unbounded = t := by
  cases hd with
  | halt =>
    have hs : m.step = (.ok false, { m with status := .halted }) := step_eq_iff.mpr (.halt h hp)
    rw [hs]
    constructor
    · intro ht
      cases ht
      exact ⟨_, rfl, rfl⟩
    · intro ht
      obtain ⟨m', hm, rfl⟩ := ht
      obtain ⟨-, rfl⟩ := Prod.mk.inj hm
      rfl
  | @change effect next s hs =>
    rw [step_of_acts h (.act hp), ← goto?_eq_some_iff ((apply_status m effect).trans h)]
    subst hs
    exact Iff.rfl
  | @request address next =>
    have htake := m.take?_reply
    rcases ht : m.takeInput with ⟨e | v, n⟩
    · have hs := step_eq_iff.mpr (.refused h hp ht)
      rw [ht] at htake
      rw [hs, Unbounded.carry?, htake]
      constructor
      · intro hn
        cases hn
      · intro hn
        obtain ⟨m', hm, -⟩ := hn
        cases hm
    · have ha : Acts m (n.apply (.write address v)) next := .read hp ht
      rw [step_of_acts h ha, ← goto?_eq_some_iff (ha.status_eq.trans h), Unbounded.carry?, htake,
        ht]
      change (n.unbounded.write address v.toInt).goto? next = some t ↔ _
      rw [← Processor.unbounded_write]
      exact Iff.rfl

/-- A step that goes through is the step over the integers, and that is taken if its numbers fit. -/
theorem step_ok_iff {t : Unbounded} (h : ∀ e, m.status ≠ .failed e) :
    (∃ m', m.step = (.ok (!t.halted), m') ∧ m'.unbounded = t) ↔
      m.unbounded.step? m.reply = some t ∧ ∀ z ∈ m.unbounded.formed, Word.Fits z := by
  cases hs : m.status with
  | failed e => exact absurd hs (h e)
  | halted =>
    have halted := Processor.unbounded_of_halted hs
    rw [step_of_halted hs, Unbounded.step?, Unbounded.formed, if_pos halted, if_pos halted]
    constructor
    · intro ht
      obtain ⟨m', hm, rfl⟩ := ht
      obtain ⟨-, rfl⟩ := Prod.mk.inj hm
      exact ⟨rfl, by simp⟩
    · intro ht
      cases ht.1
      exact ⟨m, by rw [halted]; rfl, rfl⟩
  | running =>
    have halted := Processor.unbounded_of_running hs
    have hmatch := m.plan_matches hs
    have hstuck {e : Failure} (hp : m.plan = .error e) :
        ¬∃ m', m.step = (.ok (!t.halted), m') ∧ m'.unbounded = t := by
      intro ht
      obtain ⟨m', hm, -⟩ := ht
      rw [step_eq_iff.mpr (.stuck hs hp)] at hm
      cases hm
    rw [Unbounded.step?_of_running _ halted]
    generalize hp : m.plan = plan, hd : m.unbounded.act? >>= m.unbounded.perform? = deed at hmatch
    cases hmatch with
    | ok hdoes hf =>
      rw [Option.bind_eq_bind, Option.bind_some, ← carry?_eq_some_iff hs hp hdoes]
      exact (and_iff_left hf).symm
    | stuck => exact iff_of_false (hstuck hp) fun ht ↦ by cases ht.1
    | overflow hf he =>
      obtain ⟨z, hz, hn⟩ := hf
      exact iff_of_false (hstuck hp) fun ht ↦ hn (ht.2 z hz)

theorem exists_overflow {t : Unbounded} (h : ∀ e, m.status ≠ .failed e)
    (ht : m.unbounded.step? m.reply = some t) (hf : ∃ z ∈ m.unbounded.formed, ¬Word.Fits z) :
    ∃ e m', m.step = (.error e, m') ∧ e.IsOverflow := by
  obtain ⟨z, hz, hn⟩ := hf
  cases hs : m.status with
  | failed e => exact absurd hs (h e)
  | halted =>
    have halted := Processor.unbounded_of_halted hs
    rw [Unbounded.formed, if_pos halted] at hz
    cases hz
  | running =>
    have halted := Processor.unbounded_of_running hs
    have hmatch := m.plan_matches hs
    rw [Unbounded.step?_of_running _ halted] at ht
    generalize hp : m.plan = plan, hd : m.unbounded.act? >>= m.unbounded.perform? = deed at hmatch
    cases hmatch with
    | ok hdoes hf => exact absurd (hf z hz) hn
    | stuck =>
      rw [hd] at ht
      cases ht
    | overflow hf he => exact ⟨_, _, step_eq_iff.mpr (.stuck hs hp), he⟩

theorem alive_of_step {alive : Bool} (hs : m.step = (.ok alive, m')) :
    (∀ e, m'.status ≠ .failed e) ∧ alive = !m'.unbounded.halted := by
  have hok {n : Machine π} (hn : n.status = .running ∨ n.status = .halted) (e : Failure) :
      n.status ≠ .failed e := by
    intro he
    rw [he] at hn
    rcases hn with hn | hn <;> cases hn
  cases step_eq_iff.mp hs with
  | rest hr =>
    refine ⟨hok (.inr hr), ?_⟩
    rw [Processor.unbounded_of_halted hr]
    rfl
  | halt => exact ⟨hok (.inr rfl), rfl⟩
  | @move n next hr ha hn =>
    have hn : n.status = .running := ha.status_eq.trans hr
    refine ⟨hok (.inl hn), ?_⟩
    exact (congrArg not (Processor.unbounded_of_running hn)).symm

theorem run?_replies {k : Nat} (h : ∀ e, (m.after k).status ≠ .failed e) :
    m.unbounded.run? (m.replies k) = some (m.after k).unbounded := by
  induction k generalizing m with
  | zero => rfl
  | succ k ih =>
    have hm : ∀ e, m.status ≠ .failed e := by
      intro e he
      rw [after_of_failed he] at h
      exact h e he
    rcases hs : m.step with ⟨e | alive, n⟩
    · -- A failure stays, so that the machine would have failed at the end.
      rw [after, hs, after_of_failed (failed_of_step hm hs)] at h
      exact absurd (failed_of_step hm hs) (h e)
    · rw [after, hs] at h
      obtain ⟨-, ha⟩ := alive_of_step hs
      rw [ha] at hs
      obtain ⟨ht, -⟩ := (step_ok_iff hm).mp ⟨n, hs, rfl⟩
      rw [replies, Unbounded.run?, ht, after, hs]
      exact ih h

/-- Where the machine over the integers gets to, the machine gets to as well, unless on the way it
has reported a number that does not fit. -/
theorem exists_of_run? {k : Nat} {t : Unbounded} (h : ∀ e, m.status ≠ .failed e)
    (hr : m.unbounded.run? (m.replies k) = some t) :
    ((∀ e, (m.after k).status ≠ .failed e) ∧ (m.after k).unbounded = t) ∨
      ∃ j < k, (∃ z ∈ (m.after j).unbounded.formed, ¬Word.Fits z) ∧
        ∃ e m', (m.after j).step = (.error e, m') ∧ e.IsOverflow := by
  induction k generalizing m with
  | zero =>
    cases hr
    exact .inl ⟨h, rfl⟩
  | succ k ih =>
    rw [replies, Unbounded.run?, Option.bind_eq_bind, Option.bind_eq_some_iff] at hr
    obtain ⟨s, hs, hr⟩ := hr
    by_cases hf : ∀ z ∈ m.unbounded.formed, Word.Fits z
    · -- The first steps agree, and the rest of the run starts from there.
      obtain ⟨n, hn, rfl⟩ := (step_ok_iff h).mpr ⟨hs, hf⟩
      rw [hn] at hr
      rcases ih (alive_of_step hn).1 hr with hend | ⟨j, hj, hover⟩
      · left
        rw [after, hn]
        exact hend
      · right
        refine ⟨j + 1, by omega, ?_⟩
        rw [after, hn]
        exact hover
    · have hf' : ∃ z ∈ m.unbounded.formed, ¬Word.Fits z := by
        by_contra hne
        exact hf fun z hz ↦ by_contra fun hz' ↦ hne ⟨z, hz, hz'⟩
      exact .inr ⟨0, by omega, hf', exists_overflow h hs hf'⟩

/-- The machine does what the machine over the integers does, for as long as the numbers fit, and
reports the first that does not. -/
theorem refines_unbounded (h : m.status = .running) :
    (∀ alive m', m.step = (.ok alive, m') →
      m.unbounded.step? m.reply = some m'.unbounded ∧ alive = !m'.unbounded.halted) ∧
    (∀ t, m.unbounded.step? m.reply = some t →
      ((∀ z ∈ m.unbounded.formed, Word.Fits z) →
        ∃ m', m.step = (.ok (!t.halted), m') ∧ m'.unbounded = t) ∧
      ((∃ z ∈ m.unbounded.formed, ¬Word.Fits z) →
        ∃ e m', m.step = (.error e, m') ∧ e.IsOverflow)) ∧
    (∀ k, (∀ e, (m.after k).status ≠ .failed e) →
      m.unbounded.run? (m.replies k) = some (m.after k).unbounded) ∧
    ∀ k t, m.unbounded.run? (m.replies k) = some t →
      ((∀ e, (m.after k).status ≠ .failed e) ∧ (m.after k).unbounded = t) ∨
        ∃ j < k, (∃ z ∈ (m.after j).unbounded.formed, ¬Word.Fits z) ∧
          ∃ e m', (m.after j).step = (.error e, m') ∧ e.IsOverflow := by
  have hm : ∀ e, m.status ≠ .failed e := fun e he ↦ by cases h.symm.trans he
  refine ⟨fun alive m' hs ↦ ?_, fun t ht ↦ ⟨fun hf ↦ ?_, exists_overflow hm ht⟩,
    fun k ↦ run?_replies, fun k t ↦ exists_of_run? hm⟩
  · obtain ⟨-, rfl⟩ := alive_of_step hs
    exact ⟨((step_ok_iff hm).mp ⟨m', hs, rfl⟩).1, rfl⟩
  · exact (step_ok_iff hm).mpr ⟨ht, hf⟩

def tooLarge : Machine Empty := load [1102, 4611686018427387904, 2, 3, 99]

theorem refines_unbounded_of_tooLarge : tooLarge.status = .running ∧
    ∃ e m', tooLarge.step = (.error e, m') ∧ e.IsOverflow := by
  have hz : (9223372036854775808 : Int) ∈ tooLarge.unbounded.formed := by decide
  have hn : ¬Word.Fits 9223372036854775808 := fun hf ↦ absurd hf.2 (by decide)
  exact ⟨rfl, ((refines_unbounded rfl).2.1 _ rfl).2 ⟨_, hz, hn⟩⟩

end Machine

end Intcode
