import Intcode.Proofs.Delivery

namespace Intcode.Machine

variable {π : Type} [Producer π]

section
variable {m n m' : Machine π} {fuel count : Nat} {put vs : List Word}

/-- What was queued and what is put out meanwhile is what is taken and what is left in the queue. -/
theorem execute_balance (budget : Nat) (m : Machine π) : m.outputs ++ m.puts budget =
    Pause.taken (m.execute budget).1 ++ (m.execute budget).2.outputs := by
  fun_induction execute budget m with
  | case1 budget m answer n hp =>
    rw [puts_of_pending hp, List.append_nil]
    rcases answer with e | v
    · obtain ⟨rfl, -⟩ := failed_of_pending? hp
      rfl
    · rw [← prepend_of_pending? hp]
      rfl
  | case2 m hp =>
    rw [puts, List.append_nil]
    split <;> rfl
  | case3 m hp budget e n hs | case4 m hp budget n hs =>
    have ho := m.step_outputs
    rw [hs] at ho
    rw [puts_succ hp hs, if_neg (by simp), List.append_nil]
    exact ho.symm
  | case5 m hp budget n hs ih =>
    have ho := m.step_outputs
    rw [hs] at ho
    rw [puts_succ hp hs, if_pos rfl, ← List.append_assoc, ← ho, ih]

theorem nextOutput?_balance {answer : Except Failure (Option Word)}
    (h : m.nextOutput? fuel = some (answer, n)) :
    m.outputs ++ m.puts fuel = Pause.taken (answer.map Pause.ofOutput) ++ n.outputs := by
  have hb := execute_balance fuel m
  rwa [execute_of_answer h] at hb

theorem Polls.balance {given : List Word} (hp : Polls m put given m') :
    m.outputs ++ put = given ++ m'.outputs := by
  induction hp with
  | nil => exact List.append_nil _
  | output fuel h hp ih =>
    rw [← List.append_assoc, nextOutput?_balance h, List.append_assoc, ih, ← List.append_assoc]
  | execute budget hp ih =>
    rw [← List.append_assoc, execute_balance, List.append_assoc, ih, ← List.append_assoc]

theorem halted_of_no_output (h : m.nextOutput? fuel = some (.ok none, n)) :
    n.status = .halted := by
  fun_induction nextOutput? fuel m with
  | case1 fuel m answer m' hp => rcases answer with e | v <;> cases h
  | case2 => cases h
  | case3 => cases h
  | case4 m hp fuel m' hs => cases h; exact (halted_iff_of_step hs).mp rfl
  | case5 m hp fuel m' hs ih => exact ih h

/-- One call after the other gives an output. -/
inductive Gives : Machine π → List Word → Machine π → Prop
  | nil (m : Machine π) : Gives m [] m
  | cons {m n m' : Machine π} {fuel : Nat} {v : Word} {vs : List Word}
      (h : m.nextOutput? fuel = some (.ok (some v), n)) (hg : Gives n vs m') : Gives m (v :: vs) m'

theorem Drains.halted (hd : Drains m vs (.ok ()) m') : m'.status = .halted ∧ m'.outputs = [] := by
  generalize he : (.ok () : Except Failure Unit) = ending at hd
  induction hd with
  | halt h => exact ⟨halted_of_no_output h, (run?_of_no_output h).1⟩
  | fail => cases he
  | take h hd ih => exact ih he

theorem Drains.polls {ending : Except Failure Unit} (hd : Drains m vs ending m') :
    ∃ put, Polls m put vs m' := by
  induction hd with
  | halt h | fail h => exact ⟨_, .output _ h (.nil _)⟩
  | take h hd ih =>
    obtain ⟨put, hp⟩ := ih
    exact ⟨_, .output _ h hp⟩

theorem gather?_more {r : Except Failure (Option (List Word)) × Machine π}
    (h : m.gather? fuel count = some r) (k : Nat) : m.gather? (fuel + k) count = some r := by
  induction count generalizing m r with
  | zero => exact h
  | succ count ih =>
    rw [gather?] at h ⊢
    cases ho : m.nextOutput? fuel with
    | none => rw [ho] at h; cases h
    | some answer =>
      rw [nextOutput?_add ho k]
      rw [ho] at h
      rcases answer with ⟨e | _ | v, n⟩
      · exact h
      · exact h
      · obtain ⟨r', hr, he⟩ := Option.map_eq_some_iff.mp h
        simp only [ih hr, ← he]
        rfl

theorem gather?_lasting (m : Machine π) (count : Nat) : Lasting (m.gather? · count) :=
  fun _ _ h k ↦ gather?_more h k

end

/-- A batch of `count` outputs ends with this answer. -/
def Collects (m : Machine π) (count : Nat) (answer : Except Failure (Option (List Word)))
    (n : Machine π) : Prop :=
  ∃ fuel, m.nextOutputs? fuel count = .ok (some (answer, n))

/-- After a batch that has been filled another one is begun, and else the first answer stands. -/
def Resumes (m : Machine π) (first : Except Failure (Option (List Word))) (count : Nat)
    (answer : Except Failure (Option (List Word))) (n : Machine π) : Prop :=
  match first with
  | .ok (some vs) => ∃ rest, m.Collects count rest n ∧ answer = rest.map (·.map (vs ++ ·))
  | stop => answer = stop ∧ n = m

section
variable {m n m' : Machine π} {fuel count a b : Nat} {v : Word} {vs : List Word}
  {answer : Except Failure (Option (List Word))}

theorem collects_iff : m.Collects count answer n ↔
    count ≤ batchRoom ∧ ∃ fuel, m.gather? fuel count = some (answer, n) := by
  unfold Collects
  rcases Nat.lt_or_ge batchRoom count with hc | hc
  · simp only [nextOutputs?_of_lt hc]
    exact iff_of_false (fun ⟨_, h⟩ ↦ by cases h) (fun h ↦ absurd h.1 (Nat.not_le.mpr hc))
  · simp only [nextOutputs?_of_le hc, Except.ok.injEq]
    exact (and_iff_right hc).symm

theorem Collects.unique {answer' : Except Failure (Option (List Word))}
    (h : m.Collects count answer n) (h' : m.Collects count answer' m') :
    answer = answer' ∧ n = m' := by
  obtain ⟨-, k, hk⟩ := collects_iff.mp h
  obtain ⟨-, l, hl⟩ := collects_iff.mp h'
  exact Prod.mk.inj ((m.gather?_lasting count).unique hk hl)

theorem collects_zero : m.Collects 0 answer n ↔ answer = .ok (some []) ∧ n = m := by
  rw [collects_iff, and_iff_right (Nat.zero_le batchRoom)]
  constructor
  · rintro ⟨fuel, h⟩
    cases h
    exact ⟨rfl, rfl⟩
  · rintro ⟨rfl, rfl⟩
    exact ⟨0, rfl⟩

/-- A batch begins with its first output, which is a batch by itself. -/
theorem collects_succ (hc : count + 1 ≤ batchRoom) : m.Collects (count + 1) answer m' ↔
    ∃ r n, (∃ fuel, m.nextOutput? fuel = some (r, n)) ∧
      n.Resumes (r.map (·.map ([·]))) count answer m' := by
  have hc' : count ≤ batchRoom := Nat.le_of_succ_le hc
  rw [collects_iff, and_iff_right hc]
  constructor
  · rintro ⟨fuel, h⟩
    rw [gather?] at h
    rcases ho : m.nextOutput? fuel with _ | ⟨e | _ | v, n⟩ <;> rw [ho] at h
    · cases h
    · cases h; exact ⟨_, _, ⟨fuel, ho⟩, rfl, rfl⟩
    · cases h; exact ⟨_, _, ⟨fuel, ho⟩, rfl, rfl⟩
    · obtain ⟨⟨rest, n'⟩, hr, he⟩ := Option.map_eq_some_iff.mp h
      cases he
      exact ⟨_, n, ⟨fuel, ho⟩, rest, collects_iff.mpr ⟨hc', fuel, hr⟩, rfl⟩
  · rintro ⟨e | _ | v, n, ⟨fuel, ho⟩, hr⟩
    · obtain ⟨rfl, rfl⟩ := hr
      exact ⟨fuel, by rw [gather?, ho]; rfl⟩
    · obtain ⟨rfl, rfl⟩ := hr
      exact ⟨fuel, by rw [gather?, ho]; rfl⟩
    · obtain ⟨rest, hrest, rfl⟩ := hr
      obtain ⟨-, k, hk⟩ := collects_iff.mp hrest
      have hk := gather?_more hk fuel
      rw [Nat.add_comm] at hk
      refine ⟨fuel + k, ?_⟩
      rw [gather?, nextOutput?_add ho]
      simp only [hk]
      rfl

/-- What has been collected stands in front of all that a batch comes to. -/
theorem resumes_cons {first : Except Failure (Option (List Word))} :
    n.Resumes (first.map (·.map (v :: ·))) b answer m' ↔
      ∃ rest, n.Resumes first b rest m' ∧ answer = rest.map (·.map (v :: ·)) := by
  rcases first with e | _ | us
  · exact ⟨fun h ↦ ⟨_, ⟨rfl, h.2⟩, h.1⟩, fun ⟨_, h, ha⟩ ↦ ⟨by rw [ha, h.1], h.2⟩⟩
  · exact ⟨fun h ↦ ⟨_, ⟨rfl, h.2⟩, h.1⟩, fun ⟨_, h, ha⟩ ↦ ⟨by rw [ha, h.1]; rfl, h.2⟩⟩
  · have hmap (rest : Except Failure (Option (List Word))) :
        rest.map (·.map (v :: us ++ ·)) = (rest.map (·.map (us ++ ·))).map (·.map (v :: ·)) := by
      rcases rest with e | _ | ws <;> rfl
    constructor
    · rintro ⟨rest, hc, rfl⟩
      exact ⟨_, ⟨rest, hc, rfl⟩, hmap rest⟩
    · rintro ⟨_, ⟨rest, hc, rfl⟩, rfl⟩
      exact ⟨rest, hc, (hmap rest).symm⟩

theorem collects_add (hc : a + b ≤ batchRoom) : m.Collects (a + b) answer m' ↔
    ∃ first n, m.Collects a first n ∧ n.Resumes first b answer m' := by
  induction a generalizing m answer with
  | zero =>
    have hmap (rest : Except Failure (Option (List Word))) : rest.map (·.map ([] ++ ·)) = rest := by
      rcases rest with e | _ | ws <;> rfl
    simp only [Nat.zero_add, collects_zero]
    constructor
    · intro h
      exact ⟨_, m, ⟨rfl, rfl⟩, answer, h, (hmap answer).symm⟩
    · rintro ⟨_, _, ⟨rfl, rfl⟩, rest, hc, rfl⟩
      rwa [hmap]
  | succ a ih =>
    have hfirst : a + 1 ≤ batchRoom := by omega
    have hrest : a + b ≤ batchRoom := by omega
    rw [Nat.succ_add] at hc ⊢
    rw [collects_succ hc]
    constructor
    · rintro ⟨e | _ | v, n, ho, hr⟩
      · exact ⟨_, n, (collects_succ hfirst).mpr ⟨_, n, ho, rfl, rfl⟩, hr⟩
      · exact ⟨_, n, (collects_succ hfirst).mpr ⟨_, n, ho, rfl, rfl⟩, hr⟩
      · obtain ⟨rest, hb, ha⟩ := hr
        obtain ⟨first, n', hf, hr⟩ := (ih hrest).mp hb
        refine ⟨_, n', (collects_succ hfirst).mpr ⟨_, n, ho, first, hf, rfl⟩, ?_⟩
        exact resumes_cons.mpr ⟨rest, hr, ha⟩
    · rintro ⟨first, n', hf, hr⟩
      obtain ⟨e | _ | v, n, ho, hf⟩ := (collects_succ hfirst).mp hf
      · obtain ⟨rfl, rfl⟩ := hf
        exact ⟨_, _, ho, hr⟩
      · obtain ⟨rfl, rfl⟩ := hf
        exact ⟨_, _, ho, hr⟩
      · obtain ⟨first, hb, rfl⟩ := hf
        obtain ⟨rest, hr, ha⟩ := resumes_cons.mp hr
        exact ⟨_, n, ho, rest, (ih hrest).mpr ⟨first, n', hb, hr⟩, ha⟩

theorem collects_some_iff (hc : count ≤ batchRoom) :
    m.Collects count (.ok (some vs)) m' ↔ vs.length = count ∧ m.Gives vs m' := by
  induction count generalizing m vs with
  | zero =>
    rw [collects_zero, List.length_eq_zero_iff]
    constructor
    · rintro ⟨h, rfl⟩
      cases h
      exact ⟨rfl, .nil m'⟩
    · rintro ⟨rfl, hg⟩
      cases hg
      exact ⟨rfl, rfl⟩
  | succ count ih =>
    have hrest : count ≤ batchRoom := Nat.le_of_succ_le hc
    rw [collects_succ hc]
    constructor
    · rintro ⟨e | _ | v, n, ⟨fuel, ho⟩, hr⟩
      · cases hr.1
      · cases hr.1
      · obtain ⟨e | _ | ws, hb, ha⟩ := hr <;> cases ha
        obtain ⟨hl, hg⟩ := (ih hrest).mp hb
        exact ⟨congrArg Nat.succ hl, .cons ho hg⟩
    · rintro ⟨hl, hg⟩
      cases hg with
      | nil => cases hl
      | @cons _ n _ fuel v vs ho hg =>
        exact ⟨_, n, ⟨fuel, ho⟩, _, (ih hrest).mpr ⟨Nat.succ.inj hl, hg⟩, rfl⟩

/-- A batch that is not filled ends as the outputs do. -/
theorem collects_none_iff (hc : count ≤ batchRoom) (ending : Except Failure Unit) :
    m.Collects count (ending.map fun _ ↦ none) m' ↔
      ∃ vs, vs.length < count ∧ Drains m vs ending m' := by
  induction count generalizing m with
  | zero =>
    rw [collects_zero]
    constructor
    · rintro ⟨h, -⟩
      rcases ending with e | ⟨⟩ <;> cases h
    · rintro ⟨vs, h, -⟩
      cases h
  | succ count ih =>
    have hcount : count ≤ batchRoom := Nat.le_of_succ_le hc
    rw [collects_succ hc]
    constructor
    · rintro ⟨e | _ | v, n, ⟨fuel, ho⟩, hr⟩
      · obtain ⟨ha, rfl⟩ := hr
        rcases ending with e | ⟨⟩ <;> cases ha
        exact ⟨[], Nat.succ_pos count, .fail ho⟩
      · obtain ⟨ha, rfl⟩ := hr
        rcases ending with e | ⟨⟩ <;> cases ha
        exact ⟨[], Nat.succ_pos count, .halt ho⟩
      · obtain ⟨rest, hb, ha⟩ := hr
        have hrest : rest = ending.map fun _ ↦ none := by
          rcases ending with e | ⟨⟩ <;> rcases rest with e' | _ | ws <;> cases ha <;> rfl
        obtain ⟨vs, hl, hd⟩ := (ih hcount).mp (hrest ▸ hb)
        exact ⟨v :: vs, Nat.succ_lt_succ hl, .take ho hd⟩
    · rintro ⟨vs, hl, hd⟩
      cases hd with
      | halt ho => exact ⟨_, _, ⟨_, ho⟩, rfl, rfl⟩
      | fail ho => exact ⟨_, _, ⟨_, ho⟩, rfl, rfl⟩
      | @take _ n _ fuel v vs _ ho hd =>
        refine ⟨_, n, ⟨fuel, ho⟩, _, (ih hcount).mpr ⟨vs, Nat.lt_of_succ_lt_succ hl, hd⟩, ?_⟩
        rcases ending with e | ⟨⟩ <;> rfl

end

/-- A batch that there is room for is as many calls for one output, and can be divided. It is filled
by what these calls give, or ends as they do. If it is short of outputs the machine has halted, and
all that was queued or put out until then has been taken. A batch without room breaks down. -/
theorem batches_divide (m : Machine π) :
    (∀ count answer n answer' n', m.Collects count answer n → m.Collects count answer' n' →
      answer = answer' ∧ n = n') ∧
    (∀ a b, a + b ≤ batchRoom → ∀ answer m', m.Collects (a + b) answer m' ↔
      ∃ first n, m.Collects a first n ∧ n.Resumes first b answer m') ∧
    (∀ count ≤ batchRoom,
      (∀ vs m', m.Collects count (.ok (some vs)) m' ↔ vs.length = count ∧ m.Gives vs m') ∧
      (∀ e m', m.Collects count (.error e) m' ↔
        ∃ vs, vs.length < count ∧ Drains m vs (.error e) m') ∧
      ∀ m', m.Collects count (.ok none) m' ↔
        ∃ vs, vs.length < count ∧ Drains m vs (.ok ()) m') ∧
    (∀ vs m', Drains m vs (.ok ()) m' → m'.status = .halted ∧ m'.outputs = [] ∧
      ∃ put, Polls m put vs m' ∧ vs = m.outputs ++ put) ∧
    ∀ fuel count, m.nextOutputs? fuel count = .error .capacityOverflow ↔ batchRoom < count := by
  refine ⟨fun count answer n answer' n' ↦ Collects.unique, fun a b hc answer m' ↦ collects_add hc,
    fun count hc ↦ ⟨fun vs m' ↦ collects_some_iff hc, fun e m' ↦ collects_none_iff hc (.error e),
      fun m' ↦ collects_none_iff hc (.ok ())⟩, fun vs m' hd ↦ ?_,
    fun fuel count ↦ nextOutputs?_eq_error_iff⟩
  obtain ⟨hh, ho⟩ := hd.halted
  obtain ⟨put, hp⟩ := hd.polls
  have hb := hp.balance
  rw [ho, List.append_nil] at hb
  exact ⟨hh, ho, put, hp, hb.symm⟩

/-- Of three outputs the first is queued, and two batches of two take them all. -/
def flare : Machine Empty := { (load [104, 2, 104, 3, 99] : Machine Empty) with outputs := [1] }

theorem batches_divide_of_flare : ∃ n m', flare.Collects 2 (.ok (some [1, 2])) n ∧
    flare.Collects 4 (.ok none) m' ∧ n.Collects 2 (.ok none) m' ∧ m'.status = .halted ∧
      m'.outputs = [] := by
  obtain ⟨hunique, hadd, hends, hhalt, -⟩ := batches_divide flare
  have hroom : 4 ≤ batchRoom := by decide
  obtain ⟨n, hn⟩ : ∃ n, flare.Collects 2 (.ok (some [1, 2])) n := ⟨_, 2, rfl⟩
  obtain ⟨m', hm⟩ : ∃ m', flare.Collects 4 (.ok none) m' := ⟨_, 2, rfl⟩
  obtain ⟨first, n', hf, hr⟩ := (hadd 2 2 hroom _ m').mp hm
  obtain ⟨rfl, rfl⟩ := hunique 2 _ n' _ n hf hn
  obtain ⟨e | _ | ws, hrest, ha⟩ := hr <;> cases ha
  obtain ⟨vs, -, hd⟩ := ((hends 4 hroom).2.2 m').mp hm
  obtain ⟨hh, ho, -⟩ := hhalt vs m' hd
  exact ⟨n', m', hn, hm, hrest, hh, ho⟩

/-- A machine that halts at once answers a batch of one with nothing, at which the whole batch ought
to end as well. There is no room for it. -/
theorem exists_batch_undivided :
    let m : Machine Empty := load [99]
    let n : Machine Empty := { m with status := .halted }
    m.Collects 1 (.ok none) n ∧ n.Resumes (.ok none) (2 ^ 60 - 1) (.ok none) n ∧
      ¬m.Collects (1 + (2 ^ 60 - 1)) (.ok none) n ∧
      ∀ fuel, m.nextOutputs? fuel (1 + (2 ^ 60 - 1)) = .error .capacityOverflow := by
  intro m n
  have hroom : batchRoom < 1 + (2 ^ 60 - 1) := by decide
  refine ⟨⟨1, rfl⟩, ⟨rfl, rfl⟩, fun h ↦ ?_, fun fuel ↦ nextOutputs?_of_lt hroom fuel m⟩
  have hfits := (collects_iff.mp h).1
  omega

end Intcode.Machine
