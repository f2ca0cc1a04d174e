import Mlog.Proofs.Block.Hold
import Mlog.Proofs.Compile.Run

/-!
# Invariants of statements

A statement is made in one place, waits in the buffers of open loops, is copied with a variable
bound each time such a loop ends, and goes to the output if it is a label or still resolves.  A
property that holds of every statement when it is made and that binding preserves therefore holds
of every statement of the output.  `StatementInvariant` asks for just that, and
`StatementInvariant.output` is what it pays for; the levels in between only hand statements on.
-/
set_option autoImplicit false

namespace Mlog

namespace Compile

/-- A property of statements that holds when they are made, and that binding preserves. -/
structure StatementInvariant (P : Statement → Prop) : Prop where
  bind : ∀ (s : Statement) (name value : String), P s → P (s.bind name value)
  label : ∀ (stack : BlockStack) (name : String) (provenance : Provenance),
    P ⟨[stack.qualify name ++ ":"], provenance⟩
  /-- an instruction's base lines, with the open scopes put in -/
  lowered : ∀ (stack : BlockStack) (first : String) (rest line : List String)
    (provenance : Provenance) (o base : Overload),
    Instruction.isBlockKeyword first = false → Instruction.resolve (first :: rest) = .ok o →
      line ∈ o.expand (first :: rest) → Instruction.resolve line = .ok base →
        base.expansion = .asWritten → P ⟨qualifyLine stack base line, provenance⟩

/-- A property holds of all that a step lets out or keeps back. -/
def Step.Holds (P : Statement → Prop) (step : Step) : Prop :=
  step.stack.Holds P ∧ ∀ out, step.result = .ok out → ∀ s ∈ out, P s

section Steps

variable {P : Statement → Prop}

theorem Step.holds_of_error {diagnostics : List Diagnostic} {stack : BlockStack}
    {e : CompileError} (h : stack.Holds P) : Step.Holds P ⟨diagnostics, stack, .error e⟩ :=
  ⟨h, fun out ho => absurd ho (by simp)⟩

theorem Step.holds_of_ok {diagnostics : List Diagnostic} {stack : BlockStack}
    {out : List Statement} (h : stack.Holds P) (ho : ∀ s ∈ out, P s) :
    Step.Holds P ⟨diagnostics, stack, .ok out⟩ := by
  refine ⟨h, fun out' heq => ?_⟩
  obtain rfl : out = out' := Except.ok.inj heq
  exact ho

theorem Step.holds_of_nothing {diagnostics : List Diagnostic} {stack : BlockStack}
    (h : stack.Holds P) : Step.Holds P ⟨diagnostics, stack, .ok []⟩ :=
  Step.holds_of_ok h fun s hs => absurd hs (by simp)

theorem emit_holds {diagnostics : List Diagnostic} {stack : BlockStack}
    {statements : List Statement} (h : stack.Holds P) (hs : ∀ s ∈ statements, P s) :
    (emit diagnostics stack statements).Holds P := by
  obtain ⟨hstack, hout⟩ := BlockStack.pass_holds h hs
  exact Step.holds_of_ok hstack hout

variable (hP : StatementInvariant P) {options : Options} {stack : BlockStack}
  {provenance : Provenance}

include hP

theorem instruction_holds {first : String} {rest : List String} (h : stack.Holds P)
    (hk : Instruction.isBlockKeyword first = false) :
    (instruction options stack (first :: rest) provenance).Holds P := by
  unfold instruction
  cases hr : Instruction.resolve (first :: rest) with
  | error r =>
    simp only
    cases reject options r provenance with
    | error e => exact Step.holds_of_error h
    | ok d => exact Step.holds_of_nothing h
  | ok o =>
    simp only
    cases hl : lower stack o (first :: rest) provenance with
    | error e => exact Step.holds_of_error h
    | ok statements =>
      refine emit_holds h fun s hs => ?_
      obtain ⟨line, hline, base, hbase, hx, rfl⟩ := exists_of_mem_lower hl s hs
      exact hP.lowered stack first rest line provenance o base hk hr hline hbase hx

theorem closeBlock_holds {rest : List String} {location : Location} (h : stack.Holds P) :
    (closeBlock stack rest location).Holds P := by
  rcases closeBlock_cases stack rest location with ⟨fault, hc⟩ | ⟨r, -, hr, hc⟩
  · rw [hc]
    exact Step.holds_of_error h
  · obtain ⟨hstack, hout⟩ := BlockStack.close_holds hP.bind h hr
    rw [hc]
    exact Step.holds_of_ok hstack hout

omit hP in
theorem openBlock_holds {header : List String} {location : Location} (h : stack.Holds P) :
    (openBlock stack header location).Holds P := by
  rcases openBlock_cases stack header location with
    ⟨e, -, hopen⟩ | ⟨o, kind, block, warnings, -, -, hb, hopen⟩
  · rw [hopen]
    exact Step.holds_of_error h
  · rw [hopen]
    refine Step.holds_of_nothing (BlockStack.holds_cons.mpr ⟨fun s hs => ?_, h⟩)
    rw [Block.held_of_ofHeader hb] at hs
    exact absurd hs (by simp)

theorem blockLine_holds {tokens : List String} {location : Location} (h : stack.Holds P) :
    (blockLine stack tokens location).Holds P := by
  unfold blockLine
  split
  · exact closeBlock_holds hP h
  · split
    · exact openBlock_holds h
    · exact Step.holds_of_error h

/-- One statement keeps the property up, whatever it is. -/
theorem statement_holds {tokens : List String} (h : stack.Holds P) :
    (statement options stack tokens provenance).Holds P := by
  cases tokens with
  | nil => exact Step.holds_of_nothing h
  | cons first rest =>
    unfold statement
    simp only
    cases hk : Instruction.isBlockKeyword first with
    | true => exact blockLine_holds hP h
    | false =>
      rw [if_neg (by simp)]
      cases labelOf? (first :: rest) with
      | none => exact instruction_holds hP h hk
      | some name =>
        refine emit_holds h fun s hs => ?_
        obtain rfl := List.mem_singleton.mp hs
        exact hP.label stack name provenance

theorem part_holds {settings : Settings} {location : Location} {source text : String}
    (h : stack.Holds P) : (part settings location source stack text).Holds P := by
  unfold part
  simp only
  split
  · exact Step.holds_of_error h
  · exact statement_holds hP h

theorem parts_holds {settings : Settings} {location : Location} {source : String}
    {texts : List String} (h : stack.Holds P) :
    (parts settings location source stack texts).Holds P := by
  induction texts generalizing stack with
  | nil => exact Step.holds_of_nothing h
  | cons text texts ih =>
    have hfirst : (part settings location source stack text).Holds P := part_holds hP h
    cases hr : (part settings location source stack text).result with
    | error e =>
      -- the line ends here, with what its first statement left
      rw [parts]
      simpa only [hr] using hfirst
    | ok first =>
      obtain ⟨hstack, hrest⟩ := ih hfirst.1
      refine ⟨?_, fun out ho s hs => ?_⟩
      · rw [parts_cons_stack settings location source hr]
        exact hstack
      · obtain ⟨first', others, hfirst', hothers, rfl⟩ := (parts_cons_eq_ok_iff ..).mp ho
        rcases List.mem_append.mp hs with hs | hs
        · exact hfirst.2 first' hfirst' s hs
        · exact hrest others hothers s hs

theorem line_holds {settings : Settings} {location : Location} {source : String}
    (h : stack.Holds P) : (line settings location stack source).Holds P := by
  unfold line
  split
  · exact Step.holds_of_error h
  · exact parts_holds hP h

end Steps

/-! ## Units -/

/-- What a statement has to be to go to the output: a label, or an instruction. -/
def Admitted (s : Statement) : Prop :=
  s.label?.isSome = true ∨ ∃ o, Instruction.resolve s.tokens = .ok o

theorem admitted_of_judge {options : Options} {s s' : Statement}
    (h : judge options s = .ok (.kept s')) : s' = s ∧ Admitted s := by
  unfold judge at h
  split at h
  · next hl =>
    obtain rfl : s = s' := by simpa using h
    exact ⟨rfl, Or.inl hl⟩
  · cases hr : Instruction.resolve s.tokens with
    | ok o =>
      rw [hr] at h
      obtain rfl : s = s' := by simpa using h
      exact ⟨rfl, Or.inr ⟨o, hr⟩⟩
    | error r =>
      rw [hr] at h
      cases hj : reject options r s.provenance with
      | error e => simp [hj, Except.map] at h
      | ok d => simp [hj, Except.map] at h

theorem Progress.stack_record (p : Progress) (verdicts : List Verdict) :
    (p.record verdicts).stack = p.stack := rfl

theorem Progress.statements_record (p : Progress) (verdicts : List Verdict) :
    (p.record verdicts).statements = p.statements ++ verdicts.filterMap Verdict.statement? := rfl

/-- A property holds of all that a unit has put out or keeps back. -/
structure Progress.Holds (P : Statement → Prop) (p : Progress) : Prop where
  waiting : p.stack.Holds P
  done : ∀ s ∈ p.statements, P s ∧ Admitted s

namespace StatementInvariant

variable {P : Statement → Prop} (hP : StatementInvariant P) {settings : Settings}
  {filename : String}

theorem directiveLine {p q : Progress} {location : Location} {source : String}
    (h : directiveLine location p source = .ok q) (hp : p.Holds P) : q.Holds P := by
  unfold Compile.directiveLine at h
  split at h
  · exact absurd h (by simp)
  · rw [Except.mapError_eq_ok_iff] at h
    obtain ⟨directive, -, h⟩ := Except.bind_eq_ok_iff.mp h
    obtain ⟨header, -, h⟩ := Except.bind_eq_ok_iff.mp h
    obtain rfl := Except.ok.inj h
    exact ⟨hp.waiting, hp.done⟩

include hP

/-- One line keeps the property up. -/
theorem unitLine {p q : Progress} {number : Nat} {source : String}
    (h : unitLine settings filename p number source = .ok q) (hp : p.Holds P) : q.Holds P := by
  unfold Compile.unitLine at h
  simp only at h
  split at h
  · exact directiveLine h hp
  · have hline : (line settings ⟨filename, number⟩ p.stack source).Holds P :=
      line_holds hP hp.waiting
    obtain ⟨hstack, hout⟩ := hline
    cases hr : (line settings ⟨filename, number⟩ p.stack source).result with
    | error e =>
      rw [hr] at h
      exact absurd h (by simp)
    | ok statements =>
      rw [hr] at h
      obtain ⟨verdicts, hv, h⟩ := Except.bind_eq_ok_iff.mp h
      obtain rfl := Except.ok.inj h
      refine ⟨?_, fun s hs => ?_⟩
      · simpa only [Progress.stack_record] using hstack
      rw [Progress.statements_record] at hs
      rcases List.mem_append.mp hs with hs | hs
      · exact hp.done s hs
      · obtain ⟨v, hmem, hkept⟩ := List.mem_filterMap.mp hs
        obtain ⟨s', hs', hj⟩ := Except.exists_of_mem_mapM hv v hmem
        cases v with
        | dropped d => exact absurd hkept (by simp [Verdict.statement?])
        | kept t =>
          obtain rfl : t = s := by simpa [Verdict.statement?] using hkept
          obtain ⟨rfl, hadmitted⟩ := admitted_of_judge hj
          exact ⟨hout statements hr _ hs', hadmitted⟩

/-- So do all lines of a unit. -/
theorem unitLines {lines : List String} {p q : Progress} {number : Nat}
    (h : unitLines settings filename p number lines = .ok q) (hp : p.Holds P) : q.Holds P := by
  induction lines generalizing p number with
  | nil =>
    obtain rfl : p = q := by simpa [Compile.unitLines] using h
    exact hp
  | cons line lines ih =>
    rw [Compile.unitLines] at h
    obtain ⟨mid, hmid, h⟩ := Except.bind_eq_ok_iff.mp h
    exact ih h (hP.unitLine hmid hp)

/-- **An invariant of statements holds of the output**, where every statement is a label or an
instruction besides. -/
theorem output {source : String} {seed : Symbols} {out : Output}
    (h : unit settings filename source seed = .ok out) :
    ∀ s ∈ out.statements, P s ∧ Admitted s := by
  unfold unit at h
  simp only at h
  obtain ⟨p, hp, h⟩ := Except.bind_eq_ok_iff.mp h
  obtain ⟨_, -, h⟩ := Except.bind_eq_ok_iff.mp h
  have hout : p.statements = out.statements := congrArg Output.statements (Except.ok.inj h)
  rw [← hout]
  have hstart : Progress.Holds P { symbols := seed } :=
    ⟨BlockStack.holds_nil, fun s hs => absurd hs (by simp)⟩
  exact (hP.unitLines hp hstart).done

end StatementInvariant

end Compile

end Mlog
