import Mlog.Proofs.Compile.Lenient

/-!
# Strict and lenient units

A strict unit is given up at the first line that is refused, and any other unit leaves such lines
out.  Up to that line the two do the same.  Refusals come at two stages, when a line is read and
when its statements have come out of the blocks, and other errors may come in between; so the two
runs are compared level by level, each time with the list of what the lenient run refuses there
(`Step.Follows`, `halting`).  The first refusal of the lenient run decides the strict run, and
without one the runs are equal.
-/
set_option autoImplicit false

namespace Mlog

/-- The settings with strictness turned on or off. -/
def Settings.withStrict (settings : Settings) (strict : Bool) : Settings :=
  { settings with options := { settings.options with strict } }

@[simp] theorem Settings.constants_withStrict (settings : Settings) (strict : Bool) :
    (settings.withStrict strict).constants = settings.constants := rfl

namespace Compile

/-- How a strict step stands to the lenient one, which refuses the lines given. -/
structure Step.Follows (refused : List Refusal) (strict lenient : Step) : Prop where
  same : refused = [] → strict = lenient
  halts : ∀ f rest, refused = f :: rest → strict.result = .error f.error

theorem Step.Follows.refl (step : Step) : Step.Follows [] step step where
  same _ := rfl
  halts f rest h := absurd h.symm (List.cons_ne_nil f rest)

/-- A strict step that is given up at the first refusal, wherever the lenient one goes. -/
theorem Step.Follows.of_halts {f : Refusal} {rest : List Refusal} {strict lenient : Step}
    (h : strict.result = .error f.error) : Step.Follows (f :: rest) strict lenient where
  same hnone := absurd hnone (List.cons_ne_nil f rest)
  halts f' rest' heq := by
    obtain ⟨rfl, -⟩ := List.cons.inj heq
    exact h

/-- A result up to the first refusal. -/
def halting {α : Type} (refused : List Refusal) (lenient : Except CompileError α) :
    Except CompileError α :=
  match refused with
  | [] => lenient
  | f :: _ => .error f.error

section Levels

variable (settings : Settings) (location : Location) (source : String)

/-- What a statement is, and which constants it lacks, has nothing to do with strictness. -/
theorem entryOf?_withStrict (b : Bool) (stack : BlockStack) (text : String) :
    entryOf? (settings.withStrict b) location source stack text =
        entryOf? settings location source stack text ∧
      constantWarnings (settings.withStrict b) location stack text =
        constantWarnings settings location stack text := by
  simp only [entryOf?, constantWarnings, statementTokens, Settings.constants_withStrict, and_self]

theorem reject_of_strict (f : Refusal) :
    reject (settings.withStrict true).options f.rejection f.provenance = .error f.error := rfl

theorem compile_follows (e : Entry) :
    Step.Follows e.refusal?.toList (e.compile (settings.withStrict true).options)
      (e.compile (settings.withStrict false).options) := by
  cases hf : e.refusal? with
  | none =>
    have hoptions : (settings.withStrict true).options =
      { (settings.withStrict false).options with strict := true } := rfl
    rw [hoptions, (e.compile_of_accepted (settings.withStrict false).options hf true).1]
    exact .refl _
  | some f =>
    refine .of_halts ?_
    rcases e.compile_cases (settings.withStrict true).options with ⟨f', hf', -, hc⟩ |
      ⟨hnone, -⟩ | ⟨hnone, -⟩
    · obtain rfl := Option.some.inj (hf.symm.trans hf')
      rw [hc, reject_of_strict]
    · rw [hf] at hnone
      cases hnone
    · rw [hf] at hnone
      cases hnone

theorem part_follows (stack : BlockStack) (text : String) :
    Step.Follows ((entryOf? settings location source stack text).toList.filterMap Entry.refusal?)
      (part (settings.withStrict true) location source stack text)
      (part (settings.withStrict false) location source stack text) := by
  have hentry := fun b => (entryOf?_withStrict settings location source b stack text).1
  have hwarnings := fun b => (entryOf?_withStrict settings location source b stack text).2
  cases he : entryOf? settings location source stack text with
  | none =>
    -- block syntax does not look at the options
    have hsame : ∀ b, part (settings.withStrict b) location source stack text =
        part settings location source stack text := by
      intro b
      have hoptions : settings.withStrict b =
        { settings with options := (settings.withStrict b).options } := rfl
      rw [hoptions]
      rcases part_of_not_entry he with ⟨error, hp⟩ | hp | ⟨tokens, hp⟩
      · rw [hp, ← hp settings.options]
      · rw [hp, ← hp settings.options]
      · rw [hp, ← hp settings.options]
    rw [hsame, hsame]
    exact .refl _
  | some e =>
    have hpart : ∀ b, part (settings.withStrict b) location source stack text =
        { e.compile (settings.withStrict b).options with
          diagnostics := constantWarnings settings location stack text ++
            (e.compile (settings.withStrict b).options).diagnostics } := by
      intro b
      rw [part_of_entry ((hentry b).trans he), hwarnings]
    have hrefused : ((some e).toList.filterMap Entry.refusal?) = e.refusal?.toList := by
      cases hr : e.refusal? <;> simp [hr]
    obtain ⟨hsame, hhalts⟩ := compile_follows settings e
    rw [hpart, hpart, hrefused]
    refine ⟨fun h => ?_, fun f rest h => ?_⟩
    · rw [hsame h]
    · exact hhalts f rest h

theorem parts_follows (stack : BlockStack) (texts : List String) :
    Step.Follows
      ((partsEntries (settings.withStrict false) location source stack texts).filterMap
        Entry.refusal?)
      (parts (settings.withStrict true) location source stack texts)
      (parts (settings.withStrict false) location source stack texts) := by
  induction texts generalizing stack with
  | nil => exact .refl _
  | cons text texts ih =>
    obtain ⟨hsame, hhalts⟩ := part_follows settings location source stack text
    obtain ⟨ihsame, ihhalts⟩ :=
      ih (part (settings.withStrict false) location source stack text).stack
    rw [partsEntries, (entryOf?_withStrict ..).1, List.filterMap_append]
    cases hrefused : (entryOf? settings location source stack text).toList.filterMap
        Entry.refusal? with
    | cons f fs =>
      -- the strict line ends with its first statement
      exact .of_halts ((parts_cons_eq_error_iff ..).mpr (Or.inl (hhalts f fs hrefused)))
    | nil =>
      rw [List.nil_append, parts, parts, hsame hrefused]
      cases hr : (part (settings.withStrict false) location source stack text).result with
      | error e => exact .refl _
      | ok out =>
        simp only
        refine ⟨fun h => ?_, fun f rest h => ?_⟩
        · rw [ihsame h]
        · rw [ihhalts f rest h]
          rfl

theorem line_follows (stack : BlockStack) :
    Step.Follows
      ((lineEntries (settings.withStrict false) location stack source).filterMap Entry.refusal?)
      (line (settings.withStrict true) location stack source)
      (line (settings.withStrict false) location stack source) := by
  unfold line lineEntries
  cases Line.statements (Line.clean source) with
  | error e => exact .refl _
  | ok texts => exact parts_follows settings location source stack texts

/-- A strict unit judges statements as any other does, up to the first that is refused. -/
theorem mapM_judge_halting (statements : List Statement) :
    statements.mapM (judge (settings.withStrict true).options) =
      halting (statements.filterMap Statement.refusal?)
        (statements.mapM (judge (settings.withStrict false).options)) := by
  induction statements with
  | nil => rfl
  | cons s statements ih =>
    rw [List.mapM_cons, List.mapM_cons, judge_eq, judge_eq]
    cases hf : s.refusal? with
    | some f =>
      rw [List.filterMap_cons_some hf]
      simp only [reject_of_strict]
      rfl
    | none =>
      rw [List.filterMap_cons_none hf, ih]
      cases statements.filterMap Statement.refusal? <;> rfl

variable (filename : String)

theorem unitLine_halting (p : Progress) (number : Nat) :
    unitLine (settings.withStrict true) filename p number source =
      halting (refusedAt (settings.withStrict false) filename p number source)
        (unitLine (settings.withStrict false) filename p number source) := by
  obtain ⟨hsame, hhalts⟩ := line_follows settings ⟨filename, number⟩ source p.stack
  unfold unitLine refusedAt entriesAt releasedAt
  cases hd : Directive.isDirective source with
  | true => simp only [if_true, List.filterMap_nil, List.append_nil, halting]
  | false =>
    simp only [Bool.false_eq_true, if_false]
    cases hrefused : (lineEntries (settings.withStrict false) ⟨filename, number⟩ p.stack
        source).filterMap Entry.refusal? with
    | cons f fs =>
      rw [hhalts f fs hrefused]
      rfl
    | nil =>
      rw [hsame hrefused]
      cases hr : (line (settings.withStrict false) ⟨filename, number⟩ p.stack source).result with
      | error e =>
        simp only [List.nil_append, Except.toOption, Option.getD_none, List.filterMap_nil, halting]
      | ok statements =>
        simp only [List.nil_append, Except.toOption, Option.getD_some, mapM_judge_halting]
        cases statements.filterMap Statement.refusal? with
        | nil => simp only [halting]
        | cons f fs => simp only [halting, bind, Except.bind]

theorem unitLines_halting (lines : List String) (p : Progress) (number : Nat) :
    unitLines (settings.withStrict true) filename p number lines =
      halting (collect (settings.withStrict false) filename
          (refusedAt (settings.withStrict false) filename) p number lines)
        (unitLines (settings.withStrict false) filename p number lines) := by
  induction lines generalizing p number with
  | nil => rfl
  | cons source lines ih =>
    rw [unitLines, unitLines, collect, unitLine_halting]
    cases refusedAt (settings.withStrict false) filename p number source with
    | cons f fs => simp only [halting, List.cons_append, bind, Except.bind]
    | nil =>
      cases unitLine (settings.withStrict false) filename p number source with
      | error e => simp only [halting, List.nil_append, bind, Except.bind]
      | ok q =>
        have hrest := ih q (number + 1)
        simp only [halting, List.nil_append, bind, Except.bind] at hrest ⊢
        exact hrest

/-- **The first refusal decides a strict unit**, and without one strictness makes no
difference. -/
theorem unit_halting (seed : Symbols) :
    unit (settings.withStrict true) filename source seed =
      halting (refusals (settings.withStrict false) filename source seed)
        (unit (settings.withStrict false) filename source seed) := by
  unfold unit refusals
  simp only [unitLines_halting]
  cases collect (settings.withStrict false) filename
    (refusedAt (settings.withStrict false) filename) { symbols := seed } 1
      (sourceLines source) <;> rfl

end Levels

/-- **Strict and lenient units agree up to the first refusal.**  What a strict unit puts out, the
lenient one puts out as well; a lenient unit that refuses nothing ends as the strict one does, be it
with output or with an error; and the first thing that it refuses is the error of the strict one.
The refusals are those that the lenient unit reports, when it ends with output. -/
theorem unit_strict_lenient (settings : Settings) (filename source : String) (seed : Symbols) :
    (∀ output, unit (settings.withStrict true) filename source seed = .ok output →
      unit (settings.withStrict false) filename source seed = .ok output) ∧
    (∀ output, unit (settings.withStrict false) filename source seed = .ok output →
      refusals (settings.withStrict false) filename source seed = [] →
        unit (settings.withStrict true) filename source seed = .ok output) ∧
    (∀ f rest, refusals (settings.withStrict false) filename source seed = f :: rest →
      unit (settings.withStrict true) filename source seed =
        .error (.rejected f.rejection f.provenance.location f.provenance.source)) ∧
    (∀ e, unit (settings.withStrict false) filename source seed = .error e →
      refusals (settings.withStrict false) filename source seed = [] →
        unit (settings.withStrict true) filename source seed = .error e) ∧
    (∀ output, unit (settings.withStrict false) filename source seed = .ok output →
      output.diagnostics.filter Diagnostic.isSkip =
        (refusals (settings.withStrict false) filename source seed).map Refusal.warning) := by
  have hhalting := unit_halting settings source filename seed
  refine ⟨fun output h => ?_, fun output h hnone => ?_, fun f rest hsome => ?_,
    fun e h hnone => ?_, fun output h => (unit_adds rfl h).2⟩
  · rw [hhalting] at h
    cases hr : refusals (settings.withStrict false) filename source seed with
    | nil =>
      rw [hr] at h
      exact h
    | cons f rest =>
      rw [hr] at h
      cases h
  · rw [hhalting, hnone]
    exact h
  · rw [hhalting, hsome]
    rfl
  · rw [hhalting, hnone]
    exact h

/-- A unit without refusals, one whose loop binds what no operation takes, and one that is broken
before anything is refused. -/
theorem unit_strict_lenient_ways :
    (∃ output, unit (Settings.withStrict {} true) "main.mlogx" "stop" {} = .ok output ∧
      unit (Settings.withStrict {} false) "main.mlogx" "stop" {} = .ok output) ∧
    unit (Settings.withStrict {} true) "main.mlogx"
        "&for v of \"a\" \x7b\nop add x $v 1\n\x7d" {} =
      .error (.rejected ⟨.wrongType "\"a\"" .number .string, false⟩ ⟨"main.mlogx", 2⟩
        "op add x \"a\" 1") ∧
    unit (Settings.withStrict {} true) "main.mlogx" "stop\n\x7d" {} =
      .error (.broken .noBlockToEnd ⟨"main.mlogx", 2⟩) := by
  refine ⟨?_, ?_, ?_⟩
  · have hok : (unit (Settings.withStrict {} true) "main.mlogx" "stop" {}).isOk = true := by
      decide +kernel
    cases h : unit (Settings.withStrict {} true) "main.mlogx" "stop" {} with
    | error e =>
      rw [h] at hok
      cases hok
    | ok output => exact ⟨output, rfl, (unit_strict_lenient {} _ _ _).1 output h⟩
  · have hfirst : refusals (Settings.withStrict {} false) "main.mlogx"
        "&for v of \"a\" \x7b\nop add x $v 1\n\x7d" {} =
        [⟨⟨.wrongType "\"a\"" .number .string, false⟩, ⟨"main.mlogx", 2, "op add x \"a\" 1",
            "op add x \"a\" 1", "op add x \"a\" 1"⟩⟩] := by
      decide +kernel
    exact (unit_strict_lenient {} _ _ _).2.2.1 _ _ hfirst
  · have hbroken : unit (Settings.withStrict {} false) "main.mlogx" "stop\n\x7d" {} =
        .error (.broken .noBlockToEnd ⟨"main.mlogx", 2⟩) := by rfl
    have hnone : refusals (Settings.withStrict {} false) "main.mlogx" "stop\n\x7d" {} = [] := by
      decide +kernel
    exact (unit_strict_lenient {} _ _ _).2.2.2.1 _ hbroken hnone

end Compile

end Mlog
