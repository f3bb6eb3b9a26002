import Intcode.Proofs.Batches

namespace Intcode.Machine

variable {π : Type}

/-- What happens to a machine, as far as its sources of input are concerned: a step, with the
machine that it is taken from, and the coming of a producer. -/
inductive Event (π : Type)
  | step (x : Machine π)
  | attach (s : π)

def Event.attached? : Event π → Option π
  | .step _ => none
  | .attach s => some s

def Request.attached? : Request π → Option π
  | .attach s => some s
  | _ => none

variable [Producer π]

/-- The machine gets from `m` to another by steps, the taking of outputs, and edits. -/
inductive Course (m : Machine π) : List (Event π) → Machine π → Prop
  | refl : Course m [] m
  | step {es : List (Event π)} {x : Machine π} (h : Course m es x) :
      Course m (es ++ [.step x]) x.step.2
  | take {es : List (Event π)} {x : Machine π} {v : Word} (h : Course m es (prepend [v] x)) :
      Course m es x
  | edit {es : List (Event π)} {x n : Machine π} {request : Request π} {fuel : Nat}
      {answer : Except Failure Answer} (h : Course m es x) (hc : ∀ c, request ≠ .call c)
      (hp : request.perform? fuel x = some (answer, n)) :
      Course m (es ++ request.attached?.toList.map .attach) n

section
variable {m n x : Machine π} {es fs : List (Event π)}

theorem Course.trans (h : Course m es n) (h' : Course n fs x) : Course m (es ++ fs) x := by
  induction h' with
  | refl => rwa [List.append_nil]
  | step h' ih => rw [← List.append_assoc]; exact .step ih
  | take h' ih => exact .take ih
  | edit h' hc hp ih => rw [← List.append_assoc]; exact .edit ih hc hp

theorem Course.takes {vs : List Word} (h : Course m es (prepend vs x)) : Course m es x := by
  induction vs with
  | nil => exact h
  | cons v vs ih => exact ih (.take h)

theorem Course.of_step {answer : Except Failure Bool} (hs : m.step = (answer, n))
    (h : Course n es x) : Course m (.step m :: es) x := by
  have hm : Course m [.step m] m.step.2 := .step .refl
  rw [hs] at hm
  exact hm.trans h

theorem Course.exists_after (m : Machine π) (k : Nat) :
    ∃ es, Course m es (m.after k) ∧ es.filterMap Event.attached? = [] := by
  induction k with
  | zero => exact ⟨[], .refl, rfl⟩
  | succ k ih =>
    obtain ⟨es, hc, hes⟩ := ih
    rw [after_succ]
    exact ⟨_, .step hc, by rw [List.filterMap_append, hes]; rfl⟩

omit [Producer π] in
theorem attached?_of_steps {P : Machine π → Prop} (h : ∀ e, e ∈ es ↔ ∃ y, e = .step y ∧ P y) :
    es.filterMap Event.attached? = [] := by
  refine List.filterMap_eq_nil_iff.mpr fun e he ↦ ?_
  obtain ⟨y, rfl, -⟩ := (h e).mp he
  rfl

end

/-- From `m` the machine gets to `n` by steps, which are taken from the machines of `P` and from all
of these, and by the taking of outputs. -/
def Passage (m : Machine π) (P : Machine π → Prop) (n : Machine π) : Prop :=
  ∃ es, Course m es n ∧ ∀ e, e ∈ es ↔ ∃ y, e = .step y ∧ P y

/-- Of the machines that the steps from `m` lead to, those whose numbers are in `p`. -/
def Numbered (m : Machine π) (p : Nat → Prop) (y : Machine π) : Prop := ∃ k, p k ∧ y = m.after k

section
variable {m n x : Machine π} {P Q : Machine π → Prop} {p q : Nat → Prop} {fuel : Nat}

theorem Passage.congr (h : Passage m P n) (hp : ∀ y, P y ↔ Q y) : Passage m Q n := by
  obtain rfl : P = Q := funext fun y ↦ propext (hp y)
  exact h

theorem Passage.stay (vs : List Word) (hm : prepend vs n = m) (h : ∀ y, ¬P y) :
    Passage m P n := by
  subst hm
  exact ⟨[], Course.takes .refl, fun _ ↦ ⟨nofun, fun ⟨y, _, hy⟩ ↦ absurd hy (h y)⟩⟩

theorem Passage.trans (h : Passage m P n) (h' : Passage n Q x) :
    Passage m (fun y ↦ P y ∨ Q y) x := by
  obtain ⟨es, hc, hes⟩ := h
  obtain ⟨fs, hc', hfs⟩ := h'
  refine ⟨es ++ fs, hc.trans hc', fun e ↦ ?_⟩
  rw [List.mem_append, hes, hfs]
  grind

theorem Passage.of_step {answer : Except Failure Bool} (hs : m.step = (answer, n)) (h₀ : p 0)
    (hpq : ∀ k, p (k + 1) ↔ q k) (h : Passage n (n.Numbered q) x) :
    Passage m (m.Numbered p) x := by
  obtain ⟨es, hc, hes⟩ := h
  have hn (k : Nat) : m.after (k + 1) = n.after k := by rw [after, hs]
  refine ⟨.step m :: es, hc.of_step hs, fun e ↦ ?_⟩
  rw [List.mem_cons, hes]
  constructor
  · rintro (rfl | ⟨y, rfl, k, hk, rfl⟩)
    · exact ⟨m, rfl, 0, h₀, rfl⟩
    · exact ⟨_, rfl, k + 1, (hpq k).mpr hk, (hn k).symm⟩
  · rintro ⟨y, rfl, k, hk, rfl⟩
    cases k with
    | zero => exact .inl rfl
    | succ k => exact .inr ⟨_, rfl, k, (hpq k).mp hk, hn k⟩

theorem Passage.of_last_step {answer : Except Failure Bool} (hs : m.step = (answer, n)) (h₀ : p 0)
    (hp : ∀ k, ¬p (k + 1)) : Passage m (m.Numbered p) n := by
  refine .of_step (q := fun _ ↦ False) hs h₀ (fun k ↦ iff_of_false (hp k) id) (.stay [] rfl ?_)
  rintro y ⟨k, hf, -⟩
  exact hf

theorem passage_execute (budget : Nat) (m : Machine π) :
    Passage m (m.Numbered fun k ↦ k < budget ∧ m.nextOutput? k = none) (m.execute budget).2 := by
  fun_induction execute budget m with
  | case1 n m answer m' hp =>
    have hno (y : Machine π) : ¬m.Numbered (fun k ↦ k < n ∧ m.nextOutput? k = none) y := by
      rintro ⟨k, ⟨-, hk⟩, -⟩
      rw [nextOutput?_of_pending hp] at hk
      cases hk
    cases answer with
    | error e =>
      rw [(failed_of_pending? hp).1]
      exact .stay [] rfl hno
    | ok v => exact .stay [v] (prepend_of_pending? hp) hno
  | case2 m hp =>
    refine .stay [] rfl ?_
    rintro y ⟨k, ⟨hk, -⟩, -⟩
    exact Nat.not_lt_zero k hk
  | case3 m hp n e m' hs =>
    refine .of_last_step hs ⟨by omega, nextOutput?_zero hp⟩ fun k hk ↦ ?_
    cases (nextOutput?_of_error hp hs k).symm.trans hk.2
  | case4 m hp n m' hs =>
    refine .of_last_step hs ⟨by omega, nextOutput?_zero hp⟩ fun k hk ↦ ?_
    cases (nextOutput?_of_halt hp hs k).symm.trans hk.2
  | case5 m hp n m' hs ih =>
    refine .of_step hs ⟨by omega, nextOutput?_zero hp⟩ (fun k ↦ ?_) ih
    rw [nextOutput?_of_alive hp hs, Nat.add_lt_add_iff_right]

theorem passage_nextOutput {answer : Except Failure (Option Word)}
    (h : m.nextOutput? fuel = some (answer, n)) :
    Passage m (m.Numbered fun k ↦ m.nextOutput? k = none) n := by
  have he := passage_execute fuel m
  rw [execute_of_answer h] at he
  refine he.congr fun y ↦ exists_congr fun k ↦ and_congr_left' (and_iff_right_of_imp fun hk ↦ ?_)
  exact m.nextOutput?_lasting.lt_of_none h hk

theorem passage_run {answer : Except Failure (List Word)} (h : m.run? fuel = some (answer, n)) :
    Passage m (m.Numbered fun k ↦ m.run? k = none) n := by
  fun_induction run? fuel m with
  | case1 => cases h
  | case2 m fuel e m' hs =>
    cases h
    refine .of_last_step hs rfl fun k hk ↦ ?_
    cases (run?_of_error hs k).symm.trans hk
  | case3 m fuel m' hs =>
    cases h
    refine .of_last_step hs rfl fun k hk ↦ ?_
    cases (run?_of_halt hs k).symm.trans hk
  | case4 m fuel m' hs ih =>
    exact .of_step hs rfl (fun k ↦ by rw [run?_of_alive hs]) (ih h)

theorem Batch.passage {count : Nat} {answer : Except Failure (Option (List Word))}
    {vs : List Word} (hb : Batch fuel count m answer vs n) :
    Passage m (BatchPasses · count m) n := by
  have hlast {count : Nat} {m n : Machine π} {r : Except Failure (Option Word)}
      (h : m.nextOutput? fuel = some (r, n)) (hr : ∀ v, r ≠ .ok (some v)) :
      Passage m (BatchPasses · (count + 1) m) n := by
    refine (passage_nextOutput h).congr fun y ↦ (or_iff_left ?_).symm
    rintro ⟨fuel', v, n', h', -⟩
    cases nextOutput?_unique h h'
    exact hr v rfl
  induction hb with
  | filled => exact .stay [] rfl fun y hy ↦ hy
  | failed h | short h => exact hlast h nofun
  | more h hb ih =>
    refine ((passage_nextOutput h).trans ih).congr fun y ↦ or_congr_right ⟨fun hy ↦ ?_, ?_⟩
    · exact ⟨fuel, _, _, h, hy⟩
    · rintro ⟨fuel', v, n', h', hy⟩
      cases nextOutput?_unique h h'
      exact hy

theorem Call.passage {c : Call} {answer : Except Failure Answer}
    (h : c.perform? fuel m = some (answer, n)) : Passage m (c.Passes · m) n := by
  cases c with
  | step =>
    cases h
    refine ⟨[.step m], .step .refl, fun e ↦ ?_⟩
    simp only [List.mem_singleton, Call.Passes, exists_eq_right]
  | run =>
    obtain ⟨⟨r, n⟩, hr, he⟩ := Option.map_eq_some_iff.mp h
    cases he
    exact passage_run hr
  | nextOutput =>
    obtain ⟨r, hb⟩ := exists_next h
    exact hb.passage
  | nextOutputs count =>
    obtain ⟨hc, r, hb, -⟩ := exists_batch h
    exact hb.passage.congr fun y ↦ (and_iff_right hc).symm
  | execute budget =>
    cases h
    refine (passage_execute budget m).congr fun y ↦ ?_
    simp only [Numbered, Call.Passes, and_assoc]

theorem Call.lasting (c : Call) (m : Machine π) : Lasting (c.perform? · m) := by
  cases c with
  | step | execute => exact fun _ _ h _ ↦ h
  | run => exact m.run?_lasting.map _
  | nextOutput => exact m.nextOutput?_lasting.map _
  | nextOutputs count =>
    rcases Nat.lt_or_ge batchRoom count with hc | hc
    · intro fuel r h
      cases (perform?_of_not_room hc).symm.trans h
    · simp only [perform?_batch hc]
      exact (m.gather?_lasting count).map _

theorem Request.lasting (request : Request π) (m : Machine π) :
    Lasting (request.perform? · m) := by
  cases request with
  | call c => exact c.lasting m
  | feed | moveTo | attach | write | read => exact fun _ _ h _ ↦ h

variable {request : Request π} {requests : List (Request π)} {answer : Except Failure Answer}

theorem Request.course (h : request.perform? fuel m = some (answer, n)) :
    ∃ es, Course m es n ∧ es.filterMap Event.attached? = request.attached?.toList ∧
      ∀ y, .step y ∈ es ↔ ∃ c, request = .call c ∧ c.Passes y m := by
  have hedit (hc : ∀ c, request ≠ .call c) :
      ∃ es, Course m es n ∧ es.filterMap Event.attached? = request.attached?.toList ∧
        ∀ y, .step y ∈ es ↔ ∃ c, request = .call c ∧ c.Passes y m := by
    refine ⟨_, .edit .refl hc h, ?_, fun y ↦ ⟨fun hy ↦ ?_, fun ⟨c, he, _⟩ ↦ absurd he (hc c)⟩⟩
    · cases request.attached? <;> rfl
    · obtain ⟨s, -, hs⟩ := List.mem_map.mp hy
      cases hs
  cases request with
  | call c =>
    obtain ⟨es, hc, hes⟩ := Call.passage h
    refine ⟨es, hc, attached?_of_steps hes, fun y ↦ ?_⟩
    rw [hes]
    constructor
    · rintro ⟨y', hy, hp⟩
      cases hy
      exact ⟨c, rfl, hp⟩
    · rintro ⟨c', hc', hp⟩
      cases hc'
      exact ⟨y, rfl, hp⟩
  | feed | moveTo | attach | write | read => exact hedit nofun

theorem visits_cons_iff (h : request.perform? fuel m = some (answer, n)) :
    Visits x m (request :: requests) ↔
      (∃ c, request = .call c ∧ c.Passes x m) ∨ Visits x n requests := by
  constructor
  · intro hv
    cases hv with
    | here hp => exact .inl ⟨_, rfl, hp⟩
    | later h' hv =>
      cases (request.lasting m).unique h h'
      exact .inr hv
  · rintro (⟨c, rfl, hp⟩ | hv)
    · exact .here hp
    · exact .later h hv

omit [Producer π] in
theorem filterMap_attached?_cons :
    (request :: requests).filterMap Request.attached? =
      request.attached?.toList ++ requests.filterMap Request.attached? := by
  rw [List.filterMap_cons]
  cases request.attached? <;> rfl

theorem Driven.course {answers : List (Except Failure Answer)} {taken : List Word}
    (hd : Driven m requests answers taken n) : ∃ es, Course m es n ∧
      es.filterMap Event.attached? = requests.filterMap Request.attached? ∧
      ∀ y, .step y ∈ es ↔ Visits y m requests := by
  induction hd with
  | nil => exact ⟨[], .refl, rfl, fun y ↦ ⟨nofun, nofun⟩⟩
  | cons fuel h hd ih =>
    obtain ⟨es, hc, ha, hes⟩ := Request.course h
    obtain ⟨fs, hc', ha', hfs⟩ := ih
    refine ⟨es ++ fs, hc.trans hc', ?_, fun y ↦ ?_⟩
    · rw [List.filterMap_append, ha, ha', filterMap_attached?_cons]
    · rw [List.mem_append, hes, hfs, visits_cons_iff h]

theorem BatchPasses.course {count : Nat} (h : BatchPasses x count m) :
    ∃ es, Course m es x ∧ es.filterMap Event.attached? = [] := by
  induction count generalizing m with
  | zero => exact h.elim
  | succ count ih =>
    obtain ⟨k, -, rfl⟩ | ⟨fuel, v, n, hn, hb⟩ := h
    · exact Course.exists_after m k
    · obtain ⟨es, hc, hes⟩ := passage_nextOutput hn
      obtain ⟨fs, hc', hfs⟩ := ih hb
      refine ⟨es ++ fs, hc.trans hc', ?_⟩
      rw [List.filterMap_append, attached?_of_steps hes, hfs]
      rfl

theorem Call.Passes.course {c : Call} (h : c.Passes x m) :
    ∃ es, Course m es x ∧ es.filterMap Event.attached? = [] := by
  cases c with
  | step =>
    cases h
    exact ⟨[], .refl, rfl⟩
  | run =>
    obtain ⟨k, -, rfl⟩ := h
    exact Course.exists_after m k
  | nextOutput => exact BatchPasses.course h
  | nextOutputs count => exact BatchPasses.course h.2
  | execute budget =>
    obtain ⟨k, -, -, rfl⟩ := h
    exact Course.exists_after m k

/-- Until a step that the requests take, the machine has gone a part of the way. -/
theorem Visits.course (h : Visits x m requests) : ∃ es, Course m es x ∧
    es.filterMap Event.attached? <+: requests.filterMap Request.attached? := by
  induction h with
  | here h =>
    obtain ⟨es, hc, hes⟩ := h.course
    exact ⟨es, hc, by rw [hes]; exact List.nil_prefix⟩
  | later h hv ih =>
    obtain ⟨es, hc, ha, -⟩ := Request.course h
    obtain ⟨fs, hc', ha'⟩ := ih
    refine ⟨es ++ fs, hc.trans hc', ?_⟩
    rw [List.filterMap_append, ha, filterMap_attached?_cons]
    exact (List.prefix_append_right_inj _).mpr ha'

end

end Intcode.Machine
