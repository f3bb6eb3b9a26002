import Intcode.CommandLine.Session
import Intcode.Proofs.PatchFormat

namespace Intcode

namespace Patch

def text (p : Patch) : String := p.address.text ++ "=" ++ p.value.text

/-- The argument that asks for the patch. -/
def argument (p : Patch) : String := "--set=" ++ p.text

theorem parse_text (p : Patch) : parse p.text = .ok p := by
  have hpadded := @Program.Padded.of_lead [] (List.forall_mem_nil _)
  exact parse_of_padded (hpadded p.address) (hpadded p.value) (by simp [text])

end Patch

namespace CommandLine

namespace Draft

/-- The draft with some patches in front of its own. -/
def prepend (ps : List Patch) (d : Draft) : Draft := { d with patches := ps ++ d.patches }

section
variable {ps : List Patch} {d : Draft}

theorem setProgram_prepend (arg : String) :
    (d.prepend ps).setProgram arg = (d.setProgram arg).map (prepend ps) := by
  unfold setProgram
  rw [apply_ite (Except.map (prepend ps))]
  rfl

theorem setValue_prepend (text : String) (of : Valued) :
    (d.prepend ps).setValue text of = (d.setValue text of).map (prepend ps) := by
  cases of with
  | input =>
    unfold setValue
    cases Numeral.read text.toList <;> rfl
  | patch =>
    unfold setValue
    cases Patch.parse text with
    | error e => rfl
    | ok p => simp [prepend, Except.map]
  | cycles =>
    unfold setValue
    dsimp only [prepend]
    split <;> rfl

theorem takeValue_prepend (of : Valued) (attached : Option String) :
    (d.prepend ps).takeValue of attached = (d.takeValue of attached).map (prepend ps) := by
  cases attached with
  | none => rfl
  | some text => exact setValue_prepend text of

theorem takeShort_prepend (cs : List Char) :
    (d.prepend ps).takeShort cs = (d.takeShort cs).map (prepend ps) := by
  induction cs generalizing d with
  | nil => rfl
  | cons c cs ih =>
    unfold takeShort
    split
    · rfl
    · exact takeValue_prepend .input _
    · exact takeValue_prepend .patch _
    · rename_i hc
      cases hc
      exact @ih { d with verbosity := d.verbosity + 1 }
    · rfl
    · rfl
    · rfl

theorem takeLong_prepend (name : String) (attached : Option String) :
    (d.prepend ps).takeLong name attached = (d.takeLong name attached).map (prepend ps) := by
  unfold takeLong
  split
  · exact takeValue_prepend .input attached
  · exact takeValue_prepend .patch attached
  · exact takeValue_prepend .cycles attached
  · rw [apply_ite (Except.map (prepend ps))]
    rfl
  · rfl
  · rfl
  · rfl
  · rfl

theorem takeArgument_prepend (arg : String) :
    (d.prepend ps).takeArgument arg = (d.takeArgument arg).map (prepend ps) := by
  unfold takeArgument
  split
  · rfl
  · split
    · exact takeLong_prepend _ _
    · exact takeLong_prepend _ _
  · exact takeShort_prepend _
  · exact setProgram_prepend arg

theorem take_prepend (arg : String) :
    (d.prepend ps).take arg = (d.take arg).map (prepend ps) := by
  unfold take
  dsimp only [prepend]
  split
  · exact takeArgument_prepend arg
  · exact setProgram_prepend arg
  · split
    · rfl
    · exact @setValue_prepend ps { d with expected := .anything } _ _

theorem foldlM_prepend (args : List String) :
    args.foldlM take (d.prepend ps) = (args.foldlM take d).map (prepend ps) := by
  induction args generalizing d with
  | nil => rfl
  | cons arg args ih =>
    rw [List.foldlM_cons, List.foldlM_cons, take_prepend]
    cases d.take arg with
    | error stop => rfl
    | ok d => exact ih

theorem finish_prepend :
    (d.prepend ps).finish = d.finish.map fun o ↦ { o with patches := ps ++ o.patches } := by
  unfold finish
  dsimp only [prepend]
  split <;> rfl

theorem take_argument (h : d.expected = .anything) (p : Patch) :
    d.take p.argument = .ok { d with patches := d.patches ++ [p] } := by
  have ha : p.argument.toList = '-' :: '-' :: 's' :: 'e' :: 't' :: '=' :: p.text.toList := by
    simp [Patch.argument]
  have hs : ('s' :: 'e' :: 't' :: '=' :: p.text.toList).span (· ≠ '=') =
      (['s', 'e', 't'], '=' :: p.text.toList) :=
    @Text.span_mark '=' ['s', 'e', 't'] (by decide) p.text.toList
  have ht : d.take p.argument = d.takeLong "set" (some p.text) := by
    simp only [take, h, takeArgument, ha, hs]
    rw [String.ofList_toList]
  rw [ht, takeLong, takeValue, setValue, Patch.parse_text]

end

end Draft

/-- An argument that asks for a patch may stand in front of any others. -/
theorem Options.ofArguments_cons {args : List String} {o : Options} (h : ofArguments args = .ok o)
    (p : Patch) : ofArguments (p.argument :: args) = .ok { o with patches := p :: o.patches } := by
  have hp : (p.argument :: args).foldlM Draft.take {} =
      (args.foldlM Draft.take {}).map (Draft.prepend [p]) := by
    rw [List.foldlM_cons, Draft.take_argument rfl]
    exact @Draft.foldlM_prepend [p] {} args
  rw [ofArguments] at h ⊢
  rw [hp]
  cases hd : args.foldlM Draft.take {} with
  | error stop =>
    rw [hd] at h
    cases h
  | ok d =>
    rw [hd] at h
    have hf : d.finish = .ok o := h
    change (d.prepend [p]).finish = _
    rw [Draft.finish_prepend, hf]
    rfl

/-- Options are read in such a way that a patch may be asked for in front of all else. -/
def ReadsPatches (read : List String → Except Outcome Options) : Prop :=
  ∀ (p : Patch) args o, read args = .ok o →
    read (p.argument :: args) = .ok { o with patches := p :: o.patches }

theorem ReadsPatches.read_append {read : List String → Except Outcome Options}
    (h : ReadsPatches read) {args : List String} {o : Options} (ha : read args = .ok o)
    (ps : List Patch) :
    read (ps.map Patch.argument ++ args) = .ok { o with patches := ps ++ o.patches } := by
  induction ps with
  | nil => exact ha
  | cons p ps ih => exact h p _ _ ih

theorem readsPatches_readArguments : ReadsPatches readArguments := by
  intro p args o h
  have ho : Options.ofArguments args = .ok o := by
    rw [readArguments] at h
    cases hr : Options.ofArguments args <;> rw [hr] at h <;> cases h
    rfl
  rw [readArguments, Options.ofArguments_cons ho]
  rfl

end CommandLine

end Intcode
