import Intcode.Proofs.Failed

namespace Intcode.Machine

variable {π : Type}

/-- The machine runs, and the word at the counter ends in 99. -/
def AtHalt (m : Machine π) : Prop :=
  m.status = .running ∧ m.pos < m.store.size ∧ (m.store.get m.pos).toInt % 100 = 99

theorem apply_frame (m : Machine π) (effect : Effect) :
    (m.apply effect).store.size = m.store.size ∧ (m.apply effect).pos = m.pos := by
  cases effect with
  | write a v => exact ⟨Store.size_set m.store a v, rfl⟩
  | none | emit | rebase => exact ⟨rfl, rfl⟩

theorem write_frame (m : Machine π) (a v : Word) : (m.write a v).2.store.size = m.store.size ∧
    (m.write a v).2.pos = m.pos ∧ (m.write a v).2.status = m.status := by
  unfold write Store.write
  cases Store.address a with
  | ok address => exact ⟨Store.size_set m.store address v, rfl, rfl⟩
  | error e => exact ⟨rfl, rfl, rfl⟩

variable [Producer π]

theorem takeInput_frame {m m' : Machine π} {answer : Except Failure Word}
    (ht : m.takeInput = (answer, m')) : m'.store.size = m.store.size ∧ m'.pos = m.pos := by
  have hm := m.takeInput_toProcessor
  rw [ht] at hm
  exact ⟨congrArg (·.store.size) hm, congrArg (·.pos) hm⟩

theorem Acts.frame {m m' : Machine π} {next : Int} (ha : Acts m m' next) :
    m'.store.size = m.store.size ∧ m'.pos = m.pos := by
  cases ha with
  | act hp => exact apply_frame m _
  | read hp ht =>
    obtain ⟨hs, hpos⟩ := takeInput_frame ht
    obtain ⟨hs', hpos'⟩ := apply_frame _ _
    exact ⟨hs'.trans hs, hpos'.trans hpos⟩

/-- A step never changes the length of the image, and moves the counter only inside it. -/
theorem step_frame (m : Machine π) : m.step.2.store.size = m.store.size ∧
    (m.step.2.pos = m.pos ∨ m.step.2.pos < m.store.size) := by
  rcases hs : m.step with ⟨answer, n⟩
  cases step_eq_iff.mp hs with
  | rest | fault | stuck | halt => exact ⟨rfl, .inl rfl⟩
  | refused h hp ht =>
    obtain ⟨hs, hpos⟩ := takeInput_frame ht
    exact ⟨hs, .inl hpos⟩
  | @move m' next h ha hn =>
    obtain ⟨hs, -⟩ := ha.frame
    have hlt : next.toNat < m.store.size := by omega
    exact ⟨hs, .inr hlt⟩
  | leave h ha hn =>
    obtain ⟨hs, hpos⟩ := ha.frame
    exact ⟨hs, .inl hpos⟩

theorem alive_frame {m n : Machine π} (hs : m.step = (.ok true, n)) :
    n.status = .running ∧ n.pos < n.store.size := by
  refine ⟨(running_of_step hs).2, ?_⟩
  cases step_eq_iff.mp hs with
  | @move m' next h ha hn =>
    have hlt : next.toNat < m'.store.size := by omega
    exact hlt

theorem halted_iff_of_step {m n : Machine π} {answer : Except Failure Bool}
    (hs : m.step = (answer, n)) : answer = .ok false ↔ n.status = .halted := by
  cases step_eq_iff.mp hs with
  | rest h => simp [h]
  | halt => simp
  | fault h => simp [h]
  | stuck | refused | leave => simp
  | move h ha => simp [ha.status_eq.trans h]

theorem atHalt_of_step {m : Machine π} (hr : m.status = .running)
    (hh : m.step.2.status = .halted) : m.AtHalt := by
  rcases hs : m.step with ⟨answer, n⟩
  rw [hs] at hh
  cases step_eq_iff.mp hs with
  | rest h => cases hr.symm.trans h
  | fault h => cases hr.symm.trans h
  | halt h hp => exact ⟨h, Processor.plan_eq_halt_iff.mp hp⟩
  | stuck | refused | leave => cases hh
  | move h ha => cases (ha.status_eq.trans h).symm.trans hh

theorem step_of_atHalt {m : Machine π} (h : m.AtHalt) :
    m.step = (.ok false, { m with status := .halted }) :=
  step_eq_iff.mpr (.halt h.1 (Processor.plan_eq_halt_iff.mpr h.2))

section
variable {m n : Machine π} {c : Call} {fuel : Nat} {answer : Except Failure Answer}

theorem exists_nextOutput?_of_halted (h : m.status = .halted) :
    ∃ r n, m.nextOutput? 1 = some (r, n) ∧ n.status = .halted := by
  cases ho : m.outputs with
  | nil =>
    have hp : m.pending? = none :=
      pending?_eq_none_iff.mpr ⟨fun e he ↦ (by rw [h] at he; cases he), ho⟩
    exact ⟨_, m, nextOutput?_of_halt hp (step_of_halted h) 0, h⟩
  | cons v vs =>
    have hp := pending?_of_cons (m := m) (fun e he ↦ by rw [h] at he; cases he) ho
    exact ⟨_, _, nextOutput?_of_pending hp 1, h⟩

theorem exists_batch_of_halted (h : m.status = .halted) (count : Nat) :
    ∃ r vs n, Batch 1 count m r vs n := by
  induction count generalizing m with
  | zero => exact ⟨_, _, _, .filled m⟩
  | succ count ih =>
    obtain ⟨r, n, ho, hn⟩ := exists_nextOutput?_of_halted h
    rcases r with e | _ | v
    · exact ⟨_, _, _, .failed ho⟩
    · exact ⟨_, _, _, .short ho⟩
    · obtain ⟨r, vs, n', hb⟩ := ih hn
      exact ⟨_, _, _, .more ho hb⟩

theorem Call.returns_of_halted (h : m.status = .halted) (hc : c.HasRoom) :
    ∃ answer n, c.perform? 1 m = some (answer, n) := by
  cases c with
  | step | execute => exact ⟨_, _, rfl⟩
  | run => exact ⟨_, _, by rw [perform?, run?_of_halt (step_of_halted h)]; rfl⟩
  | nextOutput =>
    obtain ⟨r, n, ho, -⟩ := exists_nextOutput?_of_halted h
    exact ⟨_, _, by rw [perform?, ho]; rfl⟩
  | nextOutputs count =>
    obtain ⟨r, vs, n, hb⟩ := exists_batch_of_halted h count
    exact ⟨_, _, by rw [perform?_batch hc, (batch_iff.mp hb).1]; rfl⟩

/-- A call of a machine that has halted does no more than take outputs. -/
theorem Call.prepend_of_halted (h : m.status = .halted)
    (hc : c.perform? fuel m = some (answer, n)) : ∃ vs, m = prepend vs n := by
  refine Call.invariant (P := fun x ↦ ∃ vs, m = prepend vs x) (fun us x hx ↦ ?_)
    (fun x _ hx ↦ ?_) hc ⟨[], rfl⟩
  · obtain ⟨vs, hv⟩ := hx
    exact ⟨vs ++ us, by rw [hv, prepend_prepend]⟩
  · obtain ⟨vs, hv⟩ := hx
    have hs : x.status = .halted := (congrArg (·.status) hv).symm.trans h
    exact ⟨vs, by rw [step_of_halted hs]; exact hv⟩

/-- A call that brings a machine to a halt takes a step from an instruction that halts. -/
theorem Call.exists_halt (h : m.status = .running) (hc : c.perform? fuel m = some (answer, n))
    (hn : n.status = .halted) : ∃ x vs, c.Passes x m ∧ x.AtHalt ∧ x.step.2 = prepend vs n := by
  refine Call.invariant
    (P := fun y ↦ y.status = .halted →
      ∃ x vs, c.Passes x m ∧ x.AtHalt ∧ x.step.2 = prepend vs y)
    (fun us y hy hs ↦ ?_) (fun x hx hy hs ↦ ?_) hc (fun hs ↦ by cases h.symm.trans hs) hn
  · obtain ⟨x, vs, hp, ha, hv⟩ := hy hs
    exact ⟨x, vs ++ us, hp, ha, by rw [hv, prepend_prepend]⟩
  · cases hr : x.status with
    | running => exact ⟨x, [], hx, atHalt_of_step hr hs, rfl⟩
    | halted =>
      rw [step_of_halted hr]
      exact hy hr
    | failed e =>
      rw [step_of_failed hr] at hs
      cases hr.symm.trans hs

theorem Request.exists_halt {request : Request π} (h : m.status = .running)
    (hp : request.perform? fuel m = some (answer, n)) (hn : n.status = .halted) :
    ∃ x vs, Visits x m [request] ∧ x.AtHalt ∧ x.step.2 = prepend vs n := by
  by_cases hc : ∃ c, request = .call c
  · obtain ⟨c, rfl⟩ := hc
    obtain ⟨x, vs, hx, ha, hv⟩ := Call.exists_halt h hp hn
    exact ⟨x, vs, .here hx, ha, hv⟩
  · rcases Request.status_eq_or (fun c hr ↦ hc ⟨c, hr⟩) hp with hs | ⟨hs, -⟩
    · cases (hs.trans h).symm.trans hn
    · cases hs.symm.trans hn

theorem Request.moves_of_halted {request : Request π} (h : m.status = .halted)
    (hp : request.perform? fuel m = some (answer, n)) (hn : n.status ≠ .halted) :
    n.status = .running ∧ ∃ pos, request = .moveTo pos := by
  by_cases hc : ∃ c, request = .call c
  · obtain ⟨c, rfl⟩ := hc
    obtain ⟨vs, hv⟩ := Call.prepend_of_halted h hp
    exact absurd ((congrArg (·.status) hv).symm.trans h) hn
  · rcases Request.status_eq_or (fun c hr ↦ hc ⟨c, hr⟩) hp with hs | hs
    · exact absurd (hs.trans h) hn
    · exact hs

theorem run?_ok_iff {answer : Except Failure (List Word)} (hr : m.run? fuel = some (answer, n)) :
    (∃ vs, answer = .ok vs) ↔ n.status = .halted := by
  fun_induction run? fuel m with
  | case1 => cases hr
  | case2 m fuel e n hs =>
    cases hr
    rw [← halted_iff_of_step hs]
    simp
  | case3 m fuel n hs =>
    cases hr
    rw [← halted_iff_of_step hs]
    simp
  | case4 m fuel n hs ih => exact ih hr

/-- An edit moves the counter only on demand, and then the machine is not left at a halt. -/
theorem Request.edit_frame {request : Request π} (hc : ∀ c, request ≠ .call c)
    (hp : request.perform? fuel m = some (answer, n)) : n.store.size = m.store.size ∧
      (n.pos = m.pos ∧ n.status = m.status ∨
        n.status ≠ .halted ∧ ∃ pos, request = .moveTo pos) := by
  cases request with
  | call c => exact absurd rfl (hc c)
  | feed | attach | read => cases hp; exact ⟨rfl, .inl ⟨rfl, rfl⟩⟩
  | moveTo pos =>
    cases hp
    refine ⟨rfl, .inr ⟨?_, pos, rfl⟩⟩
    rw [Machine.moveTo]
    split
    · exact (by decide : Status.running ≠ .halted)
    · assumption
  | write a v =>
    cases hp
    obtain ⟨hs, hpos, hst⟩ := m.write_frame a v
    exact ⟨hs, .inl ⟨hpos, hst⟩⟩

end

section
variable {m m' : Machine π} {requests : List (Request π)} {answers : List (Except Failure Answer)}
  {taken : List Word} (hd : Driven m requests answers taken m')
include hd

theorem Driven.size_eq : m'.store.size = m.store.size := by
  refine hd.invariant (P := fun x ↦ x.store.size = m.store.size) (fun vs n hn ↦ hn) ?_ ?_ rfl
  · intro x hx hs
    exact x.step_frame.1.trans hs
  · intro request hr hc x n fuel answer hp hs
    exact (Request.edit_frame hc hp).1.trans hs

/-- The cell that stopped the machine is inside the image. -/
theorem Driven.inside_of_halted (hm : m.status = .halted → m.pos < m.store.size) :
    m'.status = .halted → m'.pos < m'.store.size := by
  refine hd.invariant (P := fun x ↦ x.status = .halted → x.pos < x.store.size)
    (fun vs n hn ↦ hn) ?_ ?_ hm
  · intro x hx hi hs
    cases hr : x.status with
    | running =>
      have ha := atHalt_of_step hr hs
      rw [step_of_atHalt ha]
      exact ha.2.1
    | halted =>
      rw [step_of_halted hr]
      exact hi hr
    | failed e =>
      rw [step_of_failed hr] at hs
      cases hr.symm.trans hs
  · intro request hr hc x n fuel answer hp hi hs
    obtain ⟨hsize, ⟨hpos, hst⟩ | ⟨hst, -⟩⟩ := Request.edit_frame hc hp
    · rw [hpos, hsize]
      exact hi (hst.symm.trans hs)
    · exact absurd hs hst

/-- The counter of a machine that starts at its first cell stays inside the image as long as no one
moves it. -/
theorem Driven.inside (hm : m.pos = 0) (hmove : ∀ pos, .moveTo pos ∉ requests) :
    m'.pos < m'.store.size ∨ m'.store.size = 0 ∧ m'.pos = 0 := by
  refine hd.invariant (P := fun x ↦ x.pos < x.store.size ∨ x.store.size = 0 ∧ x.pos = 0)
    (fun vs n hn ↦ hn) ?_ ?_ (by omega)
  · intro x hx hi
    obtain ⟨hsize, hpos⟩ := x.step_frame
    omega
  · intro request hr hc x n fuel answer hp hi
    obtain ⟨hsize, ⟨hpos, -⟩ | ⟨-, pos, rfl⟩⟩ := Request.edit_frame hc hp
    · omega
    · exact absurd hr (hmove pos)

end

/-- The ways in and out of a halt, for a machine that a driver can bring about. -/
structure Orderly (m : Machine π) : Prop where
  alive : ∀ n, m.step = (.ok true, n) → n.status = .running ∧ n.pos < n.store.size
  ended : m.step.1 = .ok false ↔ m.step.2.status = .halted
  halts : m.status = .running → (m.step.2.status = .halted ↔ m.AtHalt)
  stops : m.AtHalt → m.step.2 = { m with status := .halted }
  becomes : m.status = .running → ∀ (request : Request π) fuel answer n,
    request.perform? fuel m = some (answer, n) → n.status = .halted →
      ∃ x vs, Visits x m [request] ∧ x.AtHalt ∧ x.step.2 = prepend vs n
  inside : m.status = .halted → m.pos < m.store.size
  returns : m.status = .halted → ∀ c : Call, c.HasRoom →
    ∃ answer n, c.perform? 1 m = some (answer, n)
  rests : m.status = .halted → ∀ (c : Call) fuel answer n,
    c.perform? fuel m = some (answer, n) → ∃ vs, m = prepend vs n
  wakes : m.status = .halted → ∀ (request : Request π) fuel answer n,
    request.perform? fuel m = some (answer, n) → n.status ≠ .halted →
      n.status = .running ∧ ∃ pos, request = .moveTo pos
  run_ok : ∀ fuel answer n, m.run? fuel = some (answer, n) →
    ((∃ vs, answer = .ok vs) ↔ n.status = .halted)
  run_again : ∀ fuel vs n, m.run? fuel = some (.ok vs, n) → n.run? 1 = some (.ok vs, n)

theorem orderly_of_inside {m : Machine π} (hm : m.status = .halted → m.pos < m.store.size) :
    m.Orderly where
  alive n hs := alive_frame hs
  ended := halted_iff_of_step rfl
  halts hr := ⟨atHalt_of_step hr, fun ha ↦ by rw [step_of_atHalt ha]⟩
  stops ha := by rw [step_of_atHalt ha]
  becomes hr request fuel answer n hp hn := Request.exists_halt hr hp hn
  inside := hm
  returns h _ hc := Call.returns_of_halted h hc
  rests h c fuel answer n hp := c.prepend_of_halted h hp
  wakes h request fuel answer n hp hn := Request.moves_of_halted h hp hn
  run_ok fuel answer n hr := run?_ok_iff hr
  run_again fuel vs n hr := by
    have hn : n.status = .halted := (run?_ok_iff hr).mp ⟨vs, rfl⟩
    rw [run?_of_halt (step_of_halted hn), ← (exists_steps_of_run hr).2 vs rfl]

/-- Whatever a driver does with a machine, the image keeps its length, and the machine halts only at
an instruction that says so, stays halted until it is moved, and is inside its image all the while;
one that is never moved is inside it also as it runs. -/
theorem driven_orderly {m m' : Machine π} {requests : List (Request π)}
    {answers : List (Except Failure Answer)} {taken : List Word} (hm : m.status = .running)
    (hd : Driven m requests answers taken m') :
    m'.store.size = m.store.size ∧ m'.Orderly ∧
      (m.pos = 0 → (∀ pos, .moveTo pos ∉ requests) →
        m'.pos < m'.store.size ∨ m'.store.size = 0 ∧ m'.pos = 0) := by
  have hh : m.status = .halted → m.pos < m.store.size := fun h ↦ by cases hm.symm.trans h
  exact ⟨hd.size_eq, orderly_of_inside (hd.inside_of_halted hh), hd.inside⟩

/-- A machine that puts out 7 and goes on to the word `w`. -/
def signal (w : Word) (pos : Nat) (outputs : List Word) (status : Status) : Machine Empty :=
  { store := .ofList [104, 7, w], pos, outputs, status }

/-- The machine stays at its halt although the word that stopped it has been overwritten. -/
theorem driven_orderly_of_overwritten :
    let requests : List (Request Empty) :=
      [.call .run, .write 2 1101, .call (.execute 3), .call .run, .call .step]
    (signal 99 0 [] .running).status = .running ∧
      (∃ answers,
        Driven (signal 99 0 [] .running) requests answers [7] (signal 1101 2 [] .halted)) ∧
      (signal 1101 2 [] .halted).Orderly := by
  intro requests
  have hd : ∃ answers, Driven (signal 99 0 [] .running) requests answers [7]
      (signal 1101 2 [] .halted) :=
    ⟨_, .cons (n := signal 99 2 [7] .halted) 9 rfl
      (.cons (n := signal 1101 2 [7] .halted) 9 rfl
        (.cons 9 rfl (.cons 9 rfl (.cons 9 rfl (.nil _)))))⟩
  obtain ⟨answers, hd⟩ := hd
  exact ⟨rfl, ⟨answers, hd⟩, (driven_orderly rfl hd).2.1⟩

end Intcode.Machine
