import Intcode.Network
import Intcode.Proofs.Supply

namespace Intcode

namespace Network

variable {π : Type}

/-- What machine `k` is sent by a call of machine `i` that returns `r`. -/
def sent (target : Nat → Option Nat) (i : Nat) (r : Except Failure (Option Word)) (k : Nat) :
    List Word :=
  match r with
  | .ok (some v) => if target i = some k then [v] else []
  | _ => []

def lend (n : Network π) (m : Machine π) : Machine π := { m with console := n.console }

def settle (target : Nat → Option Nat) (n : Network π) (i : Nat)
    (r : Except Failure (Option Word)) (m : Machine π) : Network π :=
  { n with machines := (n.machines.setIfInBounds i m).mapIdx fun k m ↦ m.feed (sent target i r k) }

section
variable {target : Nat → Option Nat} {n n₁ n₂ : Network π} {i j : Nat}
  {r s : Except Failure (Option Word)} {m m' : Machine π}

theorem getElem?_settle (k : Nat) : (n.settle target i r m).machines[k]? =
    (n.machines.setIfInBounds i m)[k]?.map fun m ↦ m.feed (sent target i r k) := by
  rw [settle, Array.getElem?_mapIdx]

theorem getElem?_settle_self : (n.settle target i r m).machines[i]? =
    n.machines[i]?.map fun _ ↦ m.feed (sent target i r i) := by
  rw [getElem?_settle, Array.getElem?_setIfInBounds_self]
  by_cases hi : i < n.machines.size
  · rw [if_pos hi, Array.getElem?_eq_getElem hi]; rfl
  · rw [if_neg hi, Array.getElem?_eq_none (Nat.le_of_not_lt hi)]; rfl

theorem getElem?_settle_of_ne {k : Nat} (h : i ≠ k) : (n.settle target i r m).machines[k]? =
    n.machines[k]?.map fun m ↦ m.feed (sent target i r k) := by
  rw [getElem?_settle, Array.getElem?_setIfInBounds_ne h]

theorem ext_getElem? (hm : ∀ k : Nat, n₁.machines[k]? = n₂.machines[k]?)
    (hc : n₁.console = n₂.console) : n₁ = n₂ := by
  cases n₁
  cases n₂
  cases Array.ext_getElem? hm
  cases hc
  rfl

theorem settle_of_sent_eq_nil (h : ∀ k, sent target i r k = []) :
    n.settle target i r m = { n with machines := n.machines.setIfInBounds i m } := by
  refine ext_getElem? (fun k ↦ ?_) rfl
  rw [getElem?_settle, h k]
  simp only [Machine.feed_nil, Option.map_id_fun', id_eq]

theorem sent_of_no_target (hi : target i = none) (r : Except Failure (Option Word)) (k : Nat) :
    sent target i r k = [] := by
  unfold sent
  split
  · exact if_neg fun h ↦ by rw [hi] at h; cases h
  · rfl

theorem settle_of_target {v : Word} (hj : target i = some j) :
    n.settle target i (.ok (some v)) m =
      Network.feed { n with machines := n.machines.setIfInBounds i m } j v := by
  refine ext_getElem? (fun k ↦ ?_) rfl
  rw [getElem?_settle, feed, Array.getElem?_modify, sent, hj]
  by_cases hk : j = k
  · rw [if_pos (congrArg some hk), if_pos hk]
  · rw [if_neg (fun h ↦ hk (Option.some.inj h)), if_neg hk]
    simp only [Machine.feed_nil, Option.map_id_fun', id_eq]

theorem sent_eq_nil_or (htarget : ∀ i j k, target i = some k → target j = some k → i = j)
    (hij : i ≠ j) (r s : Except Failure (Option Word)) (k : Nat) :
    sent target i r k = [] ∨ sent target j s k = [] := by
  unfold sent
  split
  · split
    · rename_i hi
      right
      split
      · exact if_neg fun hj ↦ hij (htarget i j k hi hj)
      · rfl
    · exact .inl rfl
  · exact .inl rfl

theorem feed_sent_comm (htarget : ∀ i j k, target i = some k → target j = some k → i = j)
    (hij : i ≠ j) (r s : Except Failure (Option Word)) (k : Nat) (m : Machine π) :
    (m.feed (sent target i r k)).feed (sent target j s k) =
      (m.feed (sent target j s k)).feed (sent target i r k) := by
  rw [Machine.feed_feed, Machine.feed_feed]
  rcases sent_eq_nil_or htarget hij r s k with h | h <;> rw [h, List.append_nil, List.nil_append]

theorem settle_comm (htarget : ∀ i j k, target i = some k → target j = some k → i = j)
    (hij : i ≠ j) (r s : Except Failure (Option Word)) (m m' : Machine π) :
    (n.settle target i r m).settle target j s (m'.feed (sent target i r j)) =
      (n.settle target j s m').settle target i r (m.feed (sent target j s i)) := by
  refine ext_getElem? (fun k ↦ ?_) rfl
  have hji : j ≠ i := fun h ↦ hij h.symm
  have hcomm := feed_sent_comm (π := π) htarget hij r s k
  by_cases hi : i = k
  · subst hi
    rw [getElem?_settle_of_ne hji, getElem?_settle_self, getElem?_settle_self,
      getElem?_settle_of_ne hji]
    simp only [Option.map_map, Function.comp_def, hcomm]
  by_cases hj : j = k
  · subst hj
    rw [getElem?_settle_of_ne hij, getElem?_settle_self, getElem?_settle_self,
      getElem?_settle_of_ne hij]
    simp only [Option.map_map, Function.comp_def, hcomm]
  · rw [getElem?_settle_of_ne hi, getElem?_settle_of_ne hj, getElem?_settle_of_ne hi,
      getElem?_settle_of_ne hj]
    simp only [Option.map_map, Function.comp_def, hcomm]

end

variable [Producer π]

/-- Machine `i` looks for its next output, which goes to its target if it has one. -/
def call? (target : Nat → Option Nat) (n : Network π) (fuel i : Nat) :
    Option (Except Failure (Option Word) × Network π) :=
  match target i with
  | some j => n.pipe? fuel i j
  | none => n.actAt? i (Machine.nextOutput? fuel)

/-- A call of machine `i` returns `r`, and reads no input that is not queued. -/
structure Calls (target : Nat → Option Nat) (n : Network π) (i : Nat)
    (r : Except Failure (Option Word)) (n' : Network π) : Prop where
  returns : ∃ fuel, n.call? target fuel i = some (r, n')
  supplied : ∀ m ∈ n.machines[i]?, (n.lend m).Supplied

variable {target : Nat → Option Nat} {n n' n₁ n₂ n₃ : Network π} {i j : Nat}
  {r s : Except Failure (Option Word)} {m m' : Machine π}

theorem call?_eq_settle {fuel : Nat} (hi : n.machines[i]? = some m)
    (hm : (n.lend m).Supplied) (ho : (n.lend m).nextOutput? fuel = some (r, m')) :
    n.call? target fuel i = some (r, n.settle target i r m') := by
  have hc : m'.console = n.console := hm.console_eq ho
  have hact : n.actAt? i (Machine.nextOutput? fuel) =
      some (r, { n with machines := n.machines.setIfInBounds i m' }) := by
    simp only [actAt?, hi, Option.bind_eq_bind, Option.bind_some, Option.pure_def]
    rw [← lend, ho, ← hc]
    rfl
  unfold call?
  cases hj : target i with
  | none =>
    rw [settle_of_sent_eq_nil (sent_of_no_target hj r)]
    exact hact
  | some j =>
    simp only [pipe?, hact, Option.bind_eq_bind, Option.bind_some, Option.pure_def]
    rcases r with e | _ | v
    · rw [settle_of_sent_eq_nil fun k ↦ rfl]
    · rw [settle_of_sent_eq_nil fun k ↦ rfl]
    · rw [settle_of_target hj]

theorem exists_of_call? {fuel : Nat} (h : n.call? target fuel i = some (r, n')) :
    ∃ m, n.machines[i]? = some m ∧ ∃ m', (n.lend m).nextOutput? fuel = some (r, m') := by
  have hact {s : Except Failure (Option Word)} {n'' : Network π}
      (ha : n.actAt? i (Machine.nextOutput? fuel) = some (s, n'')) :
      ∃ m, n.machines[i]? = some m ∧ ∃ m', (n.lend m).nextOutput? fuel = some (s, m') := by
    simp only [actAt?, Option.bind_eq_bind, Option.bind_eq_some_iff, Option.pure_def,
      Option.some.injEq, Prod.mk.injEq] at ha
    obtain ⟨m, hi, ⟨answer, m'⟩, ho, rfl, -⟩ := ha
    exact ⟨m, hi, m', ho⟩
  unfold call? at h
  split at h
  · simp only [pipe?, Option.bind_eq_bind, Option.bind_eq_some_iff, Option.pure_def] at h
    obtain ⟨⟨s, n''⟩, ha, h⟩ := h
    obtain ⟨m, hi, m', ho⟩ := hact ha
    rcases s with e | _ | v <;> cases h <;> exact ⟨m, hi, m', ho⟩
  · exact hact h

theorem calls_iff : n.Calls target i r n' ↔ ∃ m, n.machines[i]? = some m ∧ (n.lend m).Supplied ∧
    ∃ fuel m', (n.lend m).nextOutput? fuel = some (r, m') ∧ n' = n.settle target i r m' := by
  constructor
  · intro h
    obtain ⟨⟨fuel, hc⟩, hs⟩ := h
    obtain ⟨m, hi, m', ho⟩ := exists_of_call? hc
    have hm : (n.lend m).Supplied := hs m hi
    rw [call?_eq_settle hi hm ho] at hc
    cases hc
    exact ⟨m, hi, hm, fuel, m', ho, rfl⟩
  · intro h
    obtain ⟨m, hi, hm, fuel, m', ho, rfl⟩ := h
    refine ⟨⟨fuel, call?_eq_settle hi hm ho⟩, fun m₀ h₀ ↦ ?_⟩
    cases hi.symm.trans h₀
    exact hm

theorem Calls.of_call? (fuel : Nat) (hi : n.machines[i]? = some m)
    (hc : n.call? target fuel i = some (r, n'))
    (h : ∀ k < fuel, ¬((n.lend m).after k).starved) : n.Calls target i r n' := by
  refine ⟨⟨fuel, hc⟩, fun m₀ h₀ ↦ ?_⟩
  cases hi.symm.trans h₀
  obtain ⟨m₁, h₁, m', ho⟩ := exists_of_call? hc
  cases hi.symm.trans h₁
  exact Machine.supplied_of_returns ho h

theorem Calls.unique (h₁ : n.Calls target i r n₁) (h₂ : n.Calls target i s n₂) :
    r = s ∧ n₁ = n₂ := by
  obtain ⟨m, hi, -, a, m₁, ho₁, rfl⟩ := calls_iff.mp h₁
  obtain ⟨m₀, hi₀, -, b, m₂, ho₂, rfl⟩ := calls_iff.mp h₂
  cases hi.symm.trans hi₀
  cases Machine.nextOutput?_unique ho₁ ho₂
  exact ⟨rfl, rfl⟩

theorem Calls.after_other (hij : i ≠ j) (hi : n.machines[i]? = some m) (hm : (n.lend m).Supplied)
    {fuel : Nat} (ho : (n.lend m).nextOutput? fuel = some (r, m')) (m₂ : Machine π) :
    (n.settle target j s m₂).Calls target i r
      ((n.settle target j s m₂).settle target i r (m'.feed (sent target j s i))) := by
  have hget : (n.settle target j s m₂).machines[i]? = some (m.feed (sent target j s i)) := by
    rw [getElem?_settle_of_ne fun h ↦ hij h.symm, hi, Option.map_some]
  refine calls_iff.mpr ⟨_, hget, hm.feed _, fuel, _, ?_, rfl⟩
  exact (Machine.nextOutput?_feed hm _ fuel).trans (by rw [ho]; rfl)

/-- Calls of two machines can be made in either order. -/
theorem Calls.diamond (htarget : ∀ i j k, target i = some k → target j = some k → i = j)
    (hij : i ≠ j) (hi : n.Calls target i r n₁) (hj : n.Calls target j s n₂) :
    ∃ n₃, n₁.Calls target j s n₃ ∧ n₂.Calls target i r n₃ := by
  obtain ⟨m₁, hi₁, hm₁, a, m₁', ho₁, rfl⟩ := calls_iff.mp hi
  obtain ⟨m₂, hi₂, hm₂, b, m₂', ho₂, rfl⟩ := calls_iff.mp hj
  have hji : j ≠ i := fun h ↦ hij h.symm
  refine ⟨_, Calls.after_other hji hi₂ hm₂ ho₂ m₁', ?_⟩
  rw [settle_comm htarget hij]
  exact Calls.after_other hij hi₁ hm₁ ho₁ m₂'

/-- The calls of a schedule, each with the result that it returns, lead from one network to
another. -/
inductive Plays (target : Nat → Option Nat) :
    Network π → List (Nat × Except Failure (Option Word)) → Network π → Prop
  | nil (n : Network π) : Plays target n [] n
  | cons {n n' n'' : Network π} {i : Nat} {r : Except Failure (Option Word)}
      {calls : List (Nat × Except Failure (Option Word))} (h : n.Calls target i r n')
      (hs : Plays target n' calls n'') : Plays target n ((i, r) :: calls) n''

def results (i : Nat) (calls : List (Nat × Except Failure (Option Word))) :
    List (Except Failure (Option Word)) :=
  (calls.filter fun c ↦ c.1 == i).map (·.2)

variable {calls calls₁ calls₂ : List (Nat × Except Failure (Option Word))}

omit [Producer π] in
theorem results_cons_self : results i ((i, r) :: calls) = r :: results i calls := by
  rw [results, List.filter_cons_of_pos (by simp), List.map_cons, results]

omit [Producer π] in
theorem results_cons_of_ne (h : i ≠ j) : results j ((i, r) :: calls) = results j calls := by
  rw [results, List.filter_cons_of_neg (by simpa using h), results]

/-- A call that can be made now can be made ahead of a schedule. If the schedule makes it too, that
call is moved to the front. -/
theorem Plays.after_call (htarget : ∀ i j k, target i = some k → target j = some k → i = j)
    (hc : n.Calls target i r n₁) (hp : Plays target n calls n₂) :
    (results i calls = [] ∧ ∃ n₃, Plays target n₁ calls n₃) ∨
      ∃ calls', Plays target n₁ calls' n₂ ∧ results i calls = r :: results i calls' ∧
        ∀ j, i ≠ j → results j calls' = results j calls := by
  -- The call is carried past the calls of other machines, up to the first of its own machine.
  induction hp generalizing n₁ with
  | nil n => exact .inl ⟨rfl, n₁, .nil n₁⟩
  | @cons n n' n₂ j s calls hj hs ih =>
    by_cases hij : i = j
    · subst hij
      obtain ⟨rfl, rfl⟩ := hc.unique hj
      exact .inr ⟨calls, hs, results_cons_self, fun k hk ↦ (results_cons_of_ne hk).symm⟩
    have hji : j ≠ i := fun h ↦ hij h.symm
    obtain ⟨n₃, hj', hi'⟩ := hc.diamond htarget hij hj
    rcases ih hi' with ⟨hnil, n₄, hs'⟩ | ⟨calls', hs', hres, hother⟩
    · exact .inl ⟨(results_cons_of_ne hji).trans hnil, n₄, .cons hj' hs'⟩
    · refine .inr ⟨(j, s) :: calls', .cons hj' hs', ?_, fun k hk ↦ ?_⟩
      · rw [results_cons_of_ne hji, results_cons_of_ne hji, hres]
      · by_cases hjk : j = k
        · subst hjk
          rw [results_cons_self, results_cons_self, hother j hk]
        · rw [results_cons_of_ne hjk, results_cons_of_ne hjk, hother k hk]

/-- What a machine returns does not depend on the schedule, and neither does what becomes of the
network. -/
theorem schedules_agree (htarget : ∀ i j k, target i = some k → target j = some k → i = j)
    (h₁ : Plays target n calls₁ n₁) (h₂ : Plays target n calls₂ n₂) :
    (∀ i (k : Nat) r s, (results i calls₁)[k]? = some r → (results i calls₂)[k]? = some s → r = s) ∧
      ((∀ i, (results i calls₁).length = (results i calls₂).length) → n₁ = n₂) := by
  -- The first call of the one schedule is moved to the front of the other, where it is the same.
  induction h₁ generalizing calls₂ n₂ with
  | nil n =>
    refine ⟨fun i k r s hr ↦ (by cases hr), fun hl ↦ ?_⟩
    cases h₂ with
    | nil => rfl
    | @cons _ _ _ j _ _ _ _ =>
      have hj := hl j
      rw [results_cons_self] at hj
      cases hj
  | @cons n n' n₁ i r calls₁ hc hs ih =>
    rcases Plays.after_call htarget hc h₂ with ⟨hnil, n₃, h₂'⟩ | ⟨calls', h₂', hres, hother⟩
    · -- The other schedule never calls machine `i`, so it can do so first and no result changes.
      obtain ⟨hagree, -⟩ := ih h₂'
      refine ⟨fun j k r' s' hr hs ↦ ?_, fun hl ↦ ?_⟩
      · by_cases hij : i = j
        · subst hij
          rw [hnil] at hs
          cases hs
        · rw [results_cons_of_ne hij] at hr
          exact hagree j k r' s' hr hs
      · have hi := hl i
        rw [hnil, results_cons_self] at hi
        cases hi
    · obtain ⟨hagree, hend⟩ := ih h₂'
      refine ⟨fun j k r' s' hr hs ↦ ?_, fun hl ↦ hend fun j ↦ ?_⟩
      · by_cases hij : i = j
        · subst hij
          rw [results_cons_self] at hr
          rw [hres] at hs
          cases k with
          | zero => exact Option.some.inj (hr.symm.trans hs)
          | succ k => exact hagree i k r' s' hr hs
        · rw [results_cons_of_ne hij] at hr
          rw [← hother j hij] at hs
          exact hagree j k r' s' hr hs
      · have hj := hl j
        by_cases hij : i = j
        · subst hij
          rw [results_cons_self, hres] at hj
          exact Nat.succ.inj hj
        · rw [results_cons_of_ne hij] at hj
          rw [hother j hij]
          exact hj

/-- Two machines that put out two words each, as they read them, with one word queued for each. -/
def ring : Network Empty where
  machines := #[{ Machine.load [3, 9, 4, 9, 3, 9, 4, 9, 99, 0] with inputs := [7] },
    { Machine.load [3, 9, 4, 9, 3, 9, 4, 9, 99, 0] with inputs := [8] }]

/-- In the second round each machine reads the word that the other one has sent in the first. -/
theorem schedules_agree_of_ring :
    let target := fun i ↦ if i = 0 then some 1 else if i = 1 then some 0 else none
    ∃ n₁ n₂,
      Plays target ring [(0, .ok (some 7)), (1, .ok (some 8)), (0, .ok (some 8)),
        (1, .ok (some 7))] n₁ ∧
      Plays target ring [(1, .ok (some 8)), (0, .ok (some 7)), (1, .ok (some 7)),
        (0, .ok (some 8))] n₂ ∧ n₁ = n₂ := by
  intro target
  have htarget : ∀ i j k, target i = some k → target j = some k → i = j := by
    intro i j k hi hj
    simp only [target] at hi hj
    grind
  have h₁ : ∃ n₁, Plays target ring [(0, .ok (some 7)), (1, .ok (some 8)), (0, .ok (some 8)),
      (1, .ok (some 7))] n₁ :=
    ⟨_, .cons (.of_call? 2 rfl rfl (by decide)) (.cons (.of_call? 2 rfl rfl (by decide))
      (.cons (.of_call? 2 rfl rfl (by decide)) (.cons (.of_call? 2 rfl rfl (by decide)) (.nil _))))⟩
  have h₂ : ∃ n₂, Plays target ring [(1, .ok (some 8)), (0, .ok (some 7)), (1, .ok (some 7)),
      (0, .ok (some 8))] n₂ :=
    ⟨_, .cons (.of_call? 2 rfl rfl (by decide)) (.cons (.of_call? 2 rfl rfl (by decide))
      (.cons (.of_call? 2 rfl rfl (by decide)) (.cons (.of_call? 2 rfl rfl (by decide)) (.nil _))))⟩
  obtain ⟨n₁, h₁⟩ := h₁
  obtain ⟨n₂, h₂⟩ := h₂
  refine ⟨n₁, n₂, h₁, h₂, (schedules_agree htarget h₁ h₂).2 fun i ↦ ?_⟩
  simp only [results, List.length_map, List.filter_cons, List.filter_nil]
  grind

end Network

end Intcode
