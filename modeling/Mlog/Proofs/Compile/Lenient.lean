import Mlog.Proofs.Compile.Entry

/-!
# Units that are not strict

A unit that is not strict goes on after a refusal and leaves the line out.  What it leaves behind is
then complete: its diagnostics say that a line was skipped exactly for the refusals of the run, in
order, and it puts out exactly what its blocks released and what was not refused (`unit_adds`).
-/
set_option autoImplicit false

namespace Mlog.Compile

section Lenient

variable {settings : Settings} (hlenient : settings.options.strict = false)

include hlenient

theorem reject_of_lenient (f : Refusal) :
    reject settings.options f.rejection f.provenance = .ok f.warning := by
  simp [reject, hlenient, Refusal.warning]

theorem skips_of_compile (e : Entry) :
    (e.compile settings.options).diagnostics.filter Diagnostic.isSkip =
      e.refusal?.toList.map Refusal.warning := by
  cases hf : e.refusal? with
  | none => exact (e.compile_of_accepted settings.options hf false).2
  | some f =>
    rcases e.compile_cases settings.options with ⟨f', hf', -, hc⟩ | ⟨hnone, -⟩ | ⟨hnone, -⟩
    · obtain rfl := Option.some.inj (hf.symm.trans hf')
      rw [hc, reject_of_lenient hlenient]
      rfl
    · rw [hf] at hnone
      cases hnone
    · rw [hf] at hnone
      cases hnone

theorem skips_of_part (location : Location) (source : String) (stack : BlockStack)
    (text : String) :
    (part settings location source stack text).diagnostics.filter Diagnostic.isSkip =
      ((entryOf? settings location source stack text).toList.filterMap Entry.refusal?).map
        Refusal.warning := by
  cases he : entryOf? settings location source stack text with
  | some e =>
    rw [part_of_entry he]
    simp only [List.filter_append, skips_constantWarnings, skips_of_compile hlenient,
      List.nil_append]
    cases hf : e.refusal? <;> simp [hf]
  | none =>
    rcases part_of_not_entry he with ⟨error, hp⟩ | hp | ⟨tokens, hp⟩
    · rw [show part settings location source stack text = _ from hp settings.options]
      exact skips_constantWarnings
    · rw [show part settings location source stack text = _ from hp settings.options]
      exact skips_constantWarnings
    · rw [show part settings location source stack text = _ from hp settings.options]
      simp [skips_constantWarnings, blockLine_cases.1]

theorem skips_of_parts (location : Location) (source : String) (stack : BlockStack)
    (texts : List String) :
    (parts settings location source stack texts).diagnostics.filter Diagnostic.isSkip =
      ((partsEntries settings location source stack texts).filterMap Entry.refusal?).map
        Refusal.warning := by
  induction texts generalizing stack with
  | nil => rfl
  | cons text texts ih =>
    have hfirst := skips_of_part hlenient location source stack text
    rw [parts, partsEntries]
    cases hr : (part settings location source stack text).result with
    | error e => simpa using hfirst
    | ok out =>
      simp only [List.filter_append, List.filterMap_append, List.map_append, hfirst, ih]

theorem skips_of_line (location : Location) (stack : BlockStack) (source : String) :
    (line settings location stack source).diagnostics.filter Diagnostic.isSkip =
      ((lineEntries settings location stack source).filterMap Entry.refusal?).map
        Refusal.warning := by
  unfold line lineEntries
  cases Line.statements (Line.clean source) with
  | error e => rfl
  | ok texts => exact skips_of_parts hlenient location source stack texts

/-- Every released statement gets its verdict. -/
theorem mapM_judge (statements : List Statement) :
    ∃ verdicts, statements.mapM (judge settings.options) = .ok verdicts ∧
      verdicts.filterMap Verdict.statement? = statements.filter (·.refusal?.isNone) ∧
        verdicts.filterMap Verdict.warning? =
          (statements.filterMap Statement.refusal?).map Refusal.warning := by
  induction statements with
  | nil => exact ⟨[], rfl, rfl, rfl⟩
  | cons s statements ih =>
    obtain ⟨verdicts, hv, hkept, hwarned⟩ := ih
    cases hf : s.refusal? with
    | none =>
      refine ⟨.kept s :: verdicts, ?_, ?_, ?_⟩
      · rw [List.mapM_cons, judge_eq, hf, hv]
        rfl
      · rw [List.filter_cons_of_pos (by simp [hf]), ← hkept]
        rfl
      · rw [List.filterMap_cons_none hf, ← hwarned]
        rfl
    | some f =>
      refine ⟨.dropped f.warning :: verdicts, ?_, ?_, ?_⟩
      · rw [List.mapM_cons, judge_eq, hf, hv]
        simp only [reject_of_lenient hlenient]
        rfl
      · rw [List.filter_cons_of_neg (by simp [hf]), ← hkept]
        rfl
      · rw [List.filterMap_cons_some hf, List.map_cons, ← hwarned]
        rfl

variable {filename : String}

/-- What one line adds to the output and to the skipped lines. -/
theorem unitLine_adds {p q : Progress} {number : Nat} {source : String}
    (h : unitLine settings filename p number source = .ok q) :
    q.statements = p.statements ++
        (releasedAt settings filename p number source).filter (·.refusal?.isNone) ∧
      q.diagnostics.filter Diagnostic.isSkip = p.diagnostics.filter Diagnostic.isSkip ++
        (refusedAt settings filename p number source).map Refusal.warning := by
  unfold refusedAt entriesAt releasedAt
  rcases unitLine_cases h with ⟨hd, -, hs, hdiag⟩ | ⟨hd, statements, verdicts, hr, hv, rfl⟩
  · simp [hd, hs, hdiag]
  · obtain ⟨verdicts', hv', hkept, hwarned⟩ := mapM_judge hlenient statements
    obtain rfl := Except.ok.inj (hv.symm.trans hv')
    have hwarnings : (verdicts.filterMap Verdict.warning?).filter Diagnostic.isSkip =
        (statements.filterMap Statement.refusal?).map Refusal.warning := by
      rw [hwarned, List.filter_eq_self]
      intro d hd
      obtain ⟨f, -, rfl⟩ := List.mem_map.mp hd
      exact f.isSkip_warning
    simp [hd, hr, Progress.record, hkept, hwarnings, skips_of_line hlenient, Except.toOption]

/-- What lines add to the output and to the skipped lines. -/
theorem unitLines_adds {lines : List String} {p q : Progress} {number : Nat}
    (h : unitLines settings filename p number lines = .ok q) :
    q.statements = p.statements ++ (collect settings filename (releasedAt settings filename)
        p number lines).filter (·.refusal?.isNone) ∧
      q.diagnostics.filter Diagnostic.isSkip = p.diagnostics.filter Diagnostic.isSkip ++
        (collect settings filename (refusedAt settings filename) p number lines).map
          Refusal.warning := by
  induction lines generalizing p number with
  | nil =>
    rw [← Except.ok.inj h]
    simp [collect]
  | cons source lines ih =>
    obtain ⟨mid, hmid, h⟩ := Except.bind_eq_ok_iff.mp h
    obtain ⟨hs, hd⟩ := unitLine_adds hlenient hmid
    obtain ⟨hs', hd'⟩ := ih h
    rw [collect, collect, hmid, hs', hd', hs, hd]
    simp

end Lenient

/-- The warnings about symbols are of other kinds. -/
theorem skips_diagnose (symbols : Symbols) :
    symbols.diagnose.filter Diagnostic.isSkip = [] := by
  rw [List.filter_eq_nil_iff]
  intro d hd
  simp only [Symbols.diagnose, List.mem_append] at hd
  rcases hd with ((hd | hd) | hd) | hd
  · obtain ⟨_, -, hd⟩ := List.mem_filterMap.mp hd
    obtain ⟨_, -, rfl⟩ := Option.map_eq_some_iff.mp hd
    simp [Diagnostic.isSkip]
  · obtain ⟨⟨name, usages⟩, -, hd⟩ := List.mem_flatMap.mp hd
    simp only [Symbols.usageWarnings] at hd
    split at hd
    · split at hd
      · rw [List.mem_singleton.mp hd]
        simp [Diagnostic.isSkip]
      · cases hd
    · obtain ⟨_, -, rfl⟩ := List.mem_map.mp hd
      simp [Diagnostic.isSkip]
  · obtain ⟨_, -, hd⟩ := List.mem_filterMap.mp hd
    simp only [Option.ite_none_right_eq_some, Option.some.injEq] at hd
    rw [← hd.2]
    simp [Diagnostic.isSkip]
  · obtain ⟨_, -, hd⟩ := List.mem_filterMap.mp hd
    simp only [Option.ite_none_left_eq_some, Option.some.injEq] at hd
    rw [← hd.2]
    simp [Diagnostic.isSkip]

/-- **What a unit that is not strict leaves behind**: the statements that its blocks released and
that were not refused, and a warning for each refusal, both in order. -/
theorem unit_adds {settings : Settings} (hlenient : settings.options.strict = false)
    {filename source : String} {seed : Symbols} {output : Output}
    (h : unit settings filename source seed = .ok output) :
    output.statements =
        (released settings filename source seed).filter (·.refusal?.isNone) ∧
      output.diagnostics.filter Diagnostic.isSkip =
        (refusals settings filename source seed).map Refusal.warning := by
  obtain ⟨p, hp, h⟩ := Except.bind_eq_ok_iff.mp h
  obtain ⟨_, -, h⟩ := Except.bind_eq_ok_iff.mp h
  rw [← Except.ok.inj h]
  obtain ⟨hs, hd⟩ := unitLines_adds hlenient hp
  simp [hs, hd, skips_diagnose, released, refusals]

end Mlog.Compile
