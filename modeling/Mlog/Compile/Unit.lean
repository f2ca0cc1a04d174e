import Mlog.Compile.Line
import Mlog.Header
import Mlog.Symbols

/-!
# Compiling a unit

A unit is compiled line by line.  A directive goes to the header, and every other line becomes
statements.  A loop binds its variable only when it ends, after its body was resolved; so every
statement that comes out is resolved once more before it goes to the output, and its symbols are
recorded.
-/
set_option autoImplicit false

namespace Mlog.Compile

/-- How far a unit was compiled. -/
structure Progress where
  stack : BlockStack := []
  symbols : Symbols := {}
  header : Header := {}
  diagnostics : List Diagnostic := []
  statements : List Statement := []
  deriving DecidableEq

/-- What a unit was compiled to. -/
structure Output where
  statements : List Statement
  diagnostics : List Diagnostic
  header : Header
  symbols : Symbols
  deriving DecidableEq

/-- What becomes of a statement that came out of the open blocks: it goes to the output, or it is
left out with a warning. -/
inductive Verdict where
  | kept (statement : Statement)
  | dropped (warning : Diagnostic)
  deriving DecidableEq, Repr

namespace Verdict

/-- The statement that goes to the output. -/
def statement? : Verdict → Option Statement
  | kept s => some s
  | dropped _ => none

/-- The warning about a statement that does not. -/
def warning? : Verdict → Option Diagnostic
  | kept _ => none
  | dropped d => some d

end Verdict

/-- Judges a statement.  A label always goes to the output, and an instruction if it resolves. -/
def judge (options : Options) (s : Statement) : Except CompileError Verdict :=
  if s.label?.isSome then .ok (.kept s)
  else match Instruction.resolve s.tokens with
    | .ok _ => .ok (.kept s)
    | .error r => (reject options r s.provenance).map .dropped

/-- Takes the judged statements of a line into the output, and records their symbols. -/
def Progress.record (p : Progress) (verdicts : List Verdict) : Progress :=
  let kept := verdicts.filterMap Verdict.statement?
  { p with
    symbols := kept.foldl Symbols.add p.symbols
    diagnostics := p.diagnostics ++ verdicts.filterMap Verdict.warning?
    statements := p.statements ++ kept }

/-- The symbols that a directive defines: the parameters of a function. -/
def declare (symbols : Symbols) (location : Location) : Directive → Symbols
  | .function signature =>
    signature.params.foldl (fun s (name, ty) => s.define name ty location) symbols
  | _ => symbols

/-- Applies a directive line.  Directives stand outside all blocks. -/
def directiveLine (location : Location) (p : Progress) (source : String) :
    Except CompileError Progress :=
  if !p.stack.isEmpty then .error (.broken .directiveInBlock location)
  else
    let applied : Except DirectiveError Progress := do
      let directive ← Directive.parse source
      let header ← p.header.apply directive
      return { p with header, symbols := declare p.symbols location directive }
    applied.mapError fun e => .broken (.directive e) location

/-- Compiles one line of a unit. -/
def unitLine (settings : Settings) (filename : String) (p : Progress) (number : Nat)
    (source : String) : Except CompileError Progress :=
  let location : Location := ⟨filename, number⟩
  if Directive.isDirective source then directiveLine location p source
  else
    let step := line settings location p.stack source
    match step.result with
    | .error e => .error e
    | .ok statements => do
      let verdicts ← statements.mapM (judge settings.options)
      let p := { p with stack := step.stack, diagnostics := p.diagnostics ++ step.diagnostics }
      return p.record verdicts

/-- Compiles the lines of a unit from a given line number on. -/
def unitLines (settings : Settings) (filename : String) :
    Progress → Nat → List String → Except CompileError Progress
  | p, _, [] => .ok p
  | p, number, source :: rest => do
    let p ← unitLine settings filename p number source
    unitLines settings filename p (number + 1) rest

/-- Lines may be compiled together or one part after the other. -/
theorem unitLines_append (settings : Settings) (filename : String) (xs ys : List String)
    (p : Progress) (number : Nat) :
    unitLines settings filename p number (xs ++ ys) =
      (unitLines settings filename p number xs).bind fun q =>
        unitLines settings filename q (number + xs.length) ys := by
  induction xs generalizing p number with
  | nil => rfl
  | cons x xs ih =>
    simp only [List.cons_append, unitLines, List.length_cons]
    cases h : unitLine settings filename p number x with
    | error e => rfl
    | ok q =>
      show unitLines settings filename q (number + 1) (xs ++ ys) = _
      rw [ih]
      simp only [Nat.add_assoc, Nat.add_comm 1]
      rfl

/-- The lines of a source text. -/
def sourceLines (source : String) : List String :=
  (Text.lines source.toList).map String.ofList

/-- Compiles a unit whose symbols start from those given. -/
def unit (settings : Settings) (filename source : String) (seed : Symbols) :
    Except CompileError Output := do
  let lines := sourceLines source
  let p ← unitLines settings filename { symbols := seed } 1 lines
  let last : Location := ⟨filename, max lines.length 1⟩
  p.stack.finish.mapError (.broken · last)
  return ⟨p.statements, p.diagnostics ++ p.symbols.diagnose, p.header, p.symbols⟩

/-! ## The output text -/

/-- The labels that the statements jump to. -/
def usedLabels (statements : List Statement) : List String :=
  (statements.filter (·.label?.isNone)).flatMap fun s =>
    match Instruction.resolve s.tokens with
    | .ok o => o.targets s.tokens
    | .error _ => []

/-- The statements that are written out: all of them, or all but the labels that nothing jumps
to. -/
def kept (options : Options) (statements : List Statement) : List Statement :=
  if options.removeUnusedJumpLabels then
    let used := usedLabels statements
    statements.filter fun s => s.label?.all used.contains
  else statements

/-- A line of output, with the place of its source if it differs from it and that was asked for. -/
def outputLine (options : Options) (s : Statement) : String :=
  let mark :=
    if options.includeSource && s.text != s.provenance.cleaned then " # " ++ s.location.text
    else ""
  s.text ++ mark ++ "\n"

/-- The output text of a list of statements, one line for each. -/
def render (options : Options) (statements : List Statement) : String :=
  String.join ((kept options statements).map (outputLine options))

end Mlog.Compile
