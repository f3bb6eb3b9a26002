import Intcode.Proofs.Arguments
import Intcode.Proofs.Outcome
import Intcode.Proofs.Spelling
import Intcode.Proofs.Writes

namespace Intcode

/-- The list with a new entry at each index that there is one for. -/
def overwrite {α : Type} (new? : Nat → Option α) (l : List α) : List α :=
  l.mapIdx fun k x ↦ (new? k).getD x

section
variable {α : Type} {new? : Nat → Option α} {l : List α}

theorem length_overwrite (new? : Nat → Option α) (l : List α) :
    (overwrite new? l).length = l.length := List.length_mapIdx

theorem getElem?_overwrite (new? : Nat → Option α) (l : List α) (k : Nat) :
    (overwrite new? l)[k]? = l[k]?.map fun x ↦ (new? k).getD x := List.getElem?_mapIdx

theorem overwrite_of_none (h : ∀ k, new? k = none) : overwrite new? l = l := by
  refine List.ext_getElem? fun k ↦ ?_
  rw [getElem?_overwrite, h]
  exact Option.map_id_apply

theorem forall_mem_overwrite {P : α → Prop} (hl : ∀ x ∈ l, P x)
    (hn : ∀ k x, new? k = some x → P x) : ∀ x ∈ overwrite new? l, P x := by
  intro x hx
  obtain ⟨k, hk, rfl⟩ := List.mem_mapIdx.mp hx
  cases h : new? k with
  | none => exact hl _ (List.getElem_mem hk)
  | some x => exact hn k x h

end

namespace Program

/-- The numeral of the new word for each piece that is to be replaced. -/
def newPiece? (new? : Nat → Option Word) (k : Nat) : Option (List Char) :=
  (new? k).map fun w ↦ w.text.toList

/-- The text with some of the pieces between its commas replaced by the numerals of new words. -/
def edit (text : String) (new? : Nat → Option Word) : String :=
  String.ofList ([','].intercalate (overwrite (newPiece? new?) (text.toList.splitOn ',')))

section
variable {text : String} {pieces : List (List Char)} {ws : List Word} {new? : Nat → Option Word}

theorem denotes_overwrite (h : List.Forall₂ Denotes pieces ws) :
    List.Forall₂ Denotes (overwrite (newPiece? new?) pieces) (overwrite new? ws) := by
  obtain ⟨hlength, hd⟩ := List.forall₂_iff_get.mp h
  refine List.forall₂_iff_get.mpr ⟨by rw [length_overwrite, length_overwrite, hlength], ?_⟩
  intro k hk hk'
  rw [length_overwrite] at hk hk'
  simp only [List.get_eq_getElem, overwrite, List.getElem_mapIdx, newPiece?]
  cases new? k with
  | none => exact hd k hk hk'
  | some w => exact (Padded.of_lead (List.forall_mem_nil _) w).denotes

theorem divided_edit (text : String) (new? : Nat → Option Word) :
    Divided (edit text new?).toList (overwrite (newPiece? new?) (text.toList.splitOn ',')) := by
  refine ⟨String.toList_ofList.symm, forall_mem_overwrite not_mem_splitOn fun k piece hp ↦ ?_⟩
  obtain ⟨w, -, rfl⟩ := Option.map_eq_some_iff.mp hp
  exact w.not_mem_text (by decide) (by decide)

theorem edit_of_none (h : ∀ k, new? k = none) : edit text new? = text := by
  have hp (k : Nat) : newPiece? new? k = none := by rw [newPiece?, h, Option.map_none]
  rw [edit, overwrite_of_none hp, List.intercalate_splitOn, String.ofList_toList]

/-- An edited text is the text of the edited program. -/
theorem parse_edit (h : parse text = .ok ws) (hn : ∀ k v, new? k = some v → k < ws.length) :
    parse (edit text new?) = .ok (overwrite new? ws) := by
  by_cases hblank : text.toList.all Text.isBlank
  · -- there is no cell in a blank text, and so nothing to replace
    obtain rfl : ws = [] := by
      rw [parse, if_pos hblank] at h
      exact (Except.ok.inj h).symm
    have hnone (k : Nat) : new? k = none :=
      Option.eq_none_iff_forall_ne_some.mpr fun v hv ↦ Nat.not_lt_zero k (hn k v hv)
    rw [edit_of_none hnone, overwrite_of_none hnone, h]
  · rw [parse, if_neg hblank] at h
    have hne : overwrite (newPiece? new?) (text.toList.splitOn ',') ≠ [] := by
      rw [← List.length_pos_iff, length_overwrite, List.length_pos_iff]
      exact List.splitOn_ne_nil ',' text.toList
    have hd := @denotes_overwrite _ _ new? (readCells_eq_ok_iff.mp h)
    exact parse_of_divided (divided_edit text new?) hne hd

end

end Program

namespace Store

section
variable {s : Store} {es fs : List Edit} {a : Nat} {v : Word} {ws : List Word}

theorem changes_of_last? (h : last? es a = some v) : Changes es a := by
  obtain ⟨e, he, -⟩ := Option.map_eq_some_iff.mp h
  obtain ⟨hm, ha⟩ := List.mem_filter.mp (List.mem_of_getLast? he)
  exact ⟨e, hm, of_decide_eq_true ha⟩

/-- Edits within an image make it another image. -/
theorem edited_ofList (h : ∀ a, Changes es a → a < ws.length) :
    (ofList ws).edited es = ofList (overwrite (last? es) ws) := by
  refine eq_iff.mpr ⟨?_, fun a ↦ ?_, fun a ↦ ?_⟩
  · rw [size_edited, size_ofList, size_ofList, length_overwrite]
  · rw [get_edited, get_ofList, get_ofList, List.getD_eq_getElem?_getD, List.getD_eq_getElem?_getD,
      getElem?_overwrite]
    cases ha : ws[a]? with
    | some w => rfl
    | none =>
      have hlast : last? es a = none := Option.eq_none_iff_forall_ne_some.mpr fun v hv ↦
        Nat.not_lt.mpr (List.getElem?_eq_none_iff.mp ha) (h a (changes_of_last? hv))
      rw [hlast]
      rfl
  · rw [mem_edited, size_ofList]
    have hout : ¬(ws.length ≤ a ∧ Changes es a) := fun hc ↦ Nat.not_lt.mpr hc.1 (h a hc.2)
    exact iff_of_false (not_or.mpr ⟨Std.ExtTreeMap.not_mem_empty, hout⟩)
      Std.ExtTreeMap.not_mem_empty

theorem changes_iff : Changes es a ↔ es.filter (·.address? = some a) ≠ [] := by
  simp [Changes]

/-- Only among the edits of one cell does the order matter. -/
theorem edited_congr
    (h : ∀ a, es.filter (·.address? = some a) = fs.filter (·.address? = some a)) :
    s.edited es = s.edited fs := by
  refine eq_iff.mpr ⟨by rw [size_edited, size_edited], fun a ↦ ?_, fun a ↦ ?_⟩
  · rw [get_edited, get_edited, last?, last?, h]
  · rw [mem_edited, mem_edited, changes_iff, changes_iff, h]

end

end Store

namespace Patch

/-- What the patch does to the cells of a store. -/
def edit (p : Patch) : Store.Edit := .write p.address p.value

/-- The value that the last patch of the cell gives it. -/
def last? (ps : List Patch) (a : Nat) : Option Word :=
  (ps.filter fun p ↦ p.address.toInt = (a : Int)).getLast?.map Patch.value

section
variable {p : Patch} {ps qs : List Patch} {a : Nat} {v : Word}

theorem address?_edit : p.edit.address? = some a ↔ p.address.toInt = a := by
  rw [edit, Store.Edit.address?]
  split
  · rw [Option.some.injEq]
    omega
  · simp only [reduceCtorEq, false_iff]
    omega

theorem filter_edit (ps : List Patch) (a : Nat) :
    (ps.map edit).filter (·.address? = some a) =
      (ps.filter fun p ↦ p.address.toInt = (a : Int)).map edit := by
  rw [List.filter_map]
  congr 1
  exact List.filter_congr fun p _ ↦ by simp [address?_edit]

theorem last?_edit (ps : List Patch) (a : Nat) : Store.last? (ps.map edit) a = last? ps a := by
  rw [Store.last?, filter_edit, List.getLast?_map, Option.map_map]
  rfl

/-- The patches of the same address are in the same order in both lists. -/
def Reordered (ps qs : List Patch) : Prop :=
  ∀ w, ps.filter (·.address = w) = qs.filter (·.address = w)

theorem Reordered.mem_iff (h : Reordered ps qs) : p ∈ ps ↔ p ∈ qs := by
  have hmem (ps : List Patch) : p ∈ ps ↔ p ∈ ps.filter (·.address = p.address) := by simp
  rw [hmem ps, h, ← hmem]

theorem Reordered.filter_edit (h : Reordered ps qs) (a : Nat) :
    (ps.map edit).filter (·.address? = some a) = (qs.map edit).filter (·.address? = some a) := by
  rw [Patch.filter_edit, Patch.filter_edit]
  congr 1
  by_cases ha : ∃ w : Word, w.toInt = a
  · obtain ⟨w, hw⟩ := ha
    have hp (p : Patch) : p.address.toInt = a ↔ p.address = w := by
      rw [← hw, Int64.toInt_inj]
    simp only [hp]
    exact h w
  · -- no patch has an address that is not a word
    have hnil (ps : List Patch) : (ps.filter fun p ↦ p.address.toInt = (a : Int)) = [] :=
      List.filter_eq_nil_iff.mpr fun p _ hp ↦ ha ⟨p.address, of_decide_eq_true hp⟩
    rw [hnil, hnil]

end

end Patch

namespace CommandLine

section
variable {ps qs : List Patch} {ws : List Word} {o : Options} {text : String} {s : Store}

/-- No patch lies in front of the memory. -/
def Placed (ps : List Patch) : Prop := ∀ p ∈ ps, 0 ≤ p.address.toInt

/-- All patches lie within the first `n` cells. -/
def Inside (n : Nat) (ps : List Patch) : Prop :=
  ∀ p ∈ ps, 0 ≤ p.address.toInt ∧ p.address.toInt < n

theorem Inside.placed {n : Nat} (h : Inside n ps) : Placed ps := fun p hp ↦ (h p hp).1

theorem Inside.lt_of_changes {n a : Nat} (h : Inside n ps)
    (ha : Store.Changes (ps.map Patch.edit) a) : a < n := by
  obtain ⟨e, he, hea⟩ := ha
  obtain ⟨p, hp, rfl⟩ := List.mem_map.mp he
  have hpa := Patch.address?_edit.mp hea
  have := (h p hp).2
  omega

theorem firstMisplaced?_eq_none_iff : firstMisplaced? ps = none ↔ Placed ps := by
  simp [firstMisplaced?, Placed]

theorem patched_eq_edited (h : Placed ps) : patched s ps = s.edited (ps.map Patch.edit) := by
  induction ps generalizing s with
  | nil => rfl
  | cons p ps ih =>
    obtain ⟨hp, hps⟩ := List.forall_mem_cons.mp h
    have he : p.edit.address? = some p.address.toInt.toNat := if_pos hp
    rw [List.map_cons, Store.edited_cons, Store.Edit.perform_of_some he]
    exact ih hps

theorem patched_ofList (h : Inside ws.length ps) :
    patched (.ofList ws) ps = .ofList (overwrite (Patch.last? ps) ws) := by
  rw [patched_eq_edited h.placed, ← funext (Patch.last?_edit ps)]
  exact Store.edited_ofList fun a ↦ h.lt_of_changes

/-- What is left to be done with the memory that the patches have made. -/
def Task.start (o : Options) (s : Store) : Task :=
  if o.list then
    .print { exitCode := 0, stdout := listingText (disassemble s), stderr := "" }
  else .play o.cycles { store := s, inputs := o.inputs }

theorem ofText_of_placed (hp : Program.parse text = .ok ws) (h : Placed o.patches) :
    Task.ofText o text = .start o (patched (.ofList ws) o.patches) := by
  rw [ofText_eq, hp, firstMisplaced?_eq_none_iff.mpr h]
  rfl

/-- The arguments ask for these options, and the program file has this text. -/
structure Asks (read : List String → Except Outcome Options) (args : List String)
    (readFile : String → Except String ByteArray) (o : Options) (text : String) : Prop where
  options : read args = .ok o
  file : readFile o.program = .ok text.toUTF8

theorem Asks.run?_eq {read : List String → Except Outcome Options} {args : List String}
    {readFile : String → Except String ByteArray} (h : Asks read args readFile o text) (fuel : Nat)
    (typed : List UInt8) :
    run? read fuel args readFile typed = (Task.ofText o text).outcome? fuel typed := by
  rw [run?, h.options]
  dsimp only
  rw [h.file, ofFile_text]

theorem patched_reordered (h : Placed ps) (hr : Patch.Reordered ps qs) :
    Placed qs ∧ patched s qs = patched s ps := by
  have hq : Placed qs := fun p hp ↦ h p (hr.mem_iff.mpr hp)
  rw [patched_eq_edited h, patched_eq_edited hq, Store.edited_congr hr.filter_edit]
  exact ⟨hq, rfl⟩

/-- The first patch that lies in front of the memory settles the outcome. -/
theorem exists_misplaced (hp : Program.parse text = .ok ws)
    (h : ∃ p ∈ o.patches, p.address.toInt < 0) : ∃ before p after,
      o.patches = before ++ p :: after ∧ Placed before ∧ p.address.toInt < 0 ∧
      Task.ofText o text = .print (.failure "" (.negativeAddress p.address)) := by
  cases hm : firstMisplaced? o.patches with
  | none =>
    obtain ⟨p, hpm, hneg⟩ := h
    exact absurd hneg (Int.not_lt.mpr (firstMisplaced?_eq_none_iff.mp hm p hpm))
  | some p =>
    obtain ⟨hneg, before, after, he, hb⟩ := List.find?_eq_some_iff_append.mp hm
    refine ⟨before, p, after, he, fun q hq ↦ ?_, of_decide_eq_true hneg, ?_⟩
    · simpa using hb q hq
    · rw [ofText_eq, hp, hm]

end

/-- Patches within a program text might as well have been edits of the text, and may be asked for
in any order but that of the patches of one address. The first one that lies in front of the memory
is what the command fails with. This holds however the arguments are read. -/
theorem patching_edits (read : List String → Except Outcome Options) (o : Options) (text : String)
    (ws : List Word) (hp : Program.parse text = .ok ws) :
    (ReadsPatches read → ∀ args, read args = .ok { o with patches := [] } →
      read (o.patches.map Patch.argument ++ args) = .ok o) ∧
    (Inside ws.length o.patches →
      let edited := overwrite (Patch.last? o.patches) ws
      Program.parse (Program.edit text (Patch.last? o.patches)) = .ok edited ∧
      ∀ text' args args' readFile readFile', Program.parse text' = .ok edited →
        Asks read args readFile o text → Asks read args' readFile' { o with patches := [] } text' →
        ∀ fuel typed, run? read fuel args readFile typed = run? read fuel args' readFile' typed) ∧
    (Placed o.patches → ∀ qs args args' readFile readFile', Patch.Reordered o.patches qs →
      Asks read args readFile o text → Asks read args' readFile' { o with patches := qs } text →
      ∀ fuel typed, run? read fuel args readFile typed = run? read fuel args' readFile' typed) ∧
    ((∃ p ∈ o.patches, p.address.toInt < 0) → ∃ before p after,
      o.patches = before ++ p :: after ∧ Placed before ∧ p.address.toInt < 0 ∧
      let e : Failure := { kind := .address, value := some p.address }
      Task.ofText o text = .print (.failure "" e) ∧
      ∀ args readFile, Asks read args readFile o text → ∀ fuel typed,
        run? read fuel args readFile typed =
          some { exitCode := 1, stdout := "", stderr := "\x1b[1m" ++ e.text ++ "\x1b[0m\n" }) := by
  refine ⟨fun hread args ha ↦ ?_, fun hin ↦ ⟨?_, ?_⟩, ?_, fun hneg ↦ ?_⟩
  · have hargs := hread.read_append ha o.patches
    rwa [List.append_nil] at hargs
  · refine Program.parse_edit hp fun k v hv ↦ ?_
    rw [← Patch.last?_edit] at hv
    exact hin.lt_of_changes (Store.changes_of_last? hv)
  · intro text' args args' readFile readFile' hp' ha ha' fuel typed
    have ht := ofText_of_placed hp hin.placed
    have ht' := ofText_of_placed (o := { o with patches := [] }) hp' (List.forall_mem_nil _)
    rw [ha.run?_eq, ha'.run?_eq, ht, ht', patched_ofList hin]
    rfl
  · intro hpl qs args args' readFile readFile' hr ha ha' fuel typed
    obtain ⟨hq, he⟩ := patched_reordered (s := .ofList ws) hpl hr
    have ht := ofText_of_placed hp hpl
    have ht' := ofText_of_placed (o := { o with patches := qs }) hp hq
    rw [ha.run?_eq, ha'.run?_eq, ht, ht', he]
    rfl
  · obtain ⟨before, p, after, he, hb, hlt, ht⟩ := exists_misplaced hp hneg
    refine ⟨before, p, after, he, hb, hlt, ht, fun args readFile ha fuel typed ↦ ?_⟩
    rw [ha.run?_eq, ht]
    rfl

def noun : Options where
  program := "noun"
  inputs := []
  patches := [⟨1, 4⟩, ⟨2, 9⟩, ⟨2, 6⟩]
  list := false
  cycles := 5000
  verbosity := 0

def misplaced : Options :=
  { noun with patches := [⟨1, 4⟩, ⟨-3, 5⟩, ⟨-4, 1⟩], list := true }

def nounText : String := "1, 0, 0 ,0,4,0,99"

/-- Both operands of a sum are patched, the second one twice. In the other run there are patches in
front of the memory. -/
theorem patching_edits_of_noun :
    let run := run? readArguments
    let file (text : String) (_ : String) : Except String ByteArray := .ok text.toUTF8
    let args := ["--set", "1=4", "-s2=9", "--set= 2 = +6", "noun"]
    let args' := ["--set", "1=4", "--set=-3=5", "--set=-4=1", "--list", "noun"]
    readArguments (noun.patches.map Patch.argument ++ ["noun"]) = .ok noun ∧
    (∀ fuel typed,
      run fuel args (file nounText) typed = run fuel ["noun"] (file "1,4,6,0,4,0,99") typed) ∧
    run 2 args (file nounText) [] = some { exitCode := 0, stdout := "103\n", stderr := "" } ∧
    ∀ fuel typed, run fuel args' (file nounText) typed =
      some { exitCode := 1, stdout := "", stderr := "\x1b[1mINVALID ADDRESS -3\x1b[0m\n" } := by
  intro run file args args'
  have hp : Program.parse nounText = .ok [1, 0, 0, 0, 4, 0, 99] := by decide
  obtain ⟨hpatches, hedit, -, -⟩ := patching_edits readArguments noun nounText _ hp
  have hin : Inside 7 noun.patches := by
    unfold Inside
    decide
  obtain ⟨-, -, -, hneg⟩ := patching_edits readArguments misplaced nounText _ hp
  obtain ⟨before, p, after, he, hb, hlt, -, hrun⟩ := hneg ⟨⟨-3, 5⟩, by decide, by decide⟩
  obtain rfl : p = ⟨-3, 5⟩ := by
    rcases before with _ | ⟨q, _ | ⟨r, before⟩⟩
    · cases he
      exact absurd hlt (by decide)
    · cases he
      rfl
    · obtain ⟨-, rfl, -⟩ : ⟨1, 4⟩ = q ∧ ⟨-3, 5⟩ = r ∧ _ := by simpa [misplaced] using he
      exact absurd (hb ⟨-3, 5⟩ (by simp)) (by decide)
  refine ⟨hpatches readsPatches_readArguments ["noun"] (by decide), ?_, by decide,
    hrun args' (file nounText) ⟨by decide, rfl⟩⟩
  exact (hedit hin).2 _ args ["noun"] _ _ (by decide) ⟨by decide, rfl⟩ ⟨by decide, rfl⟩

end CommandLine

end Intcode
