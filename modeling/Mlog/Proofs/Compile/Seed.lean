import Mlog.Proofs.Compile.Conservation
import Mlog.Proofs.Compile.Disabled
import Mlog.Proofs.Compile.Invariant
import Mlog.Proofs.Symbols.Merge

/-!
# Symbols that a unit starts from

A unit may start from the symbols of other units.  Nothing that it does depends on them, and all it
records is at lines of its own file.  So if they have no definition there, the unit ends with them
merged in front of its own symbols, and is the same otherwise (`unit_seed`).
-/
set_option autoImplicit false

namespace Mlog

/-- The symbols have no definition in a file. -/
def Symbols.AvoidsFile (s : Symbols) (filename : String) : Prop :=
  ∀ name, ∀ d ∈ s.definitions.values name, d.location.filename ≠ filename

theorem Symbols.AvoidsFile.avoids {s : Symbols} {filename : String} (h : s.AvoidsFile filename)
    {location : Location} (hl : location.filename = filename) : s.Avoids location := by
  intro name d hd hlocation
  exact h name d hd (hlocation ▸ hl)

/-- The statement comes from a file. -/
def Statement.IsFrom (filename : String) (s : Statement) : Prop := s.location.filename = filename

namespace Compile

/-! ## Statements come from the file that is compiled -/

section File

variable {settings : Settings} {location : Location} {source : String} {stack : BlockStack}
  {out : List Statement}

theorem Entry.isFrom_of_mem {text : String} {e : Entry}
    (he : entryOf? settings location source stack text = some e) :
    ∀ s ∈ e.statements, s.IsFrom location.filename := by
  intro s hs
  unfold entryOf? at he
  split at he
  · split at he
    · obtain rfl := Option.some.inj he
      rw [Statement.IsFrom, Statement.location, Entry.provenance_of_mem_statements hs]
      rfl
    · cases he
  · cases he

theorem part_isFrom {text : String} (h : stack.Holds (Statement.IsFrom location.filename))
    (hr : (part settings location source stack text).result = .ok out) :
    (part settings location source stack text).stack.Holds (Statement.IsFrom location.filename) ∧
      ∀ s ∈ out, s.IsFrom location.filename := by
  rcases part_cases hr with ⟨e, he, hpass⟩ | ⟨-, hstack, rfl⟩ | ⟨-, hclose⟩ |
    ⟨first, header, o, kind, block, warnings, -, -, -, -, -, hopen, hstack, rfl⟩
  · simpa only [hpass] using BlockStack.pass_holds h (Entry.isFrom_of_mem he)
  · rw [hstack]
    exact ⟨h, by simp⟩
  · refine BlockStack.close_holds (fun s name value hs => ?_) h hclose
    simpa only [Statement.IsFrom, Statement.location, Provenance.location, Statement.bind] using hs
  · rw [hstack]
    refine ⟨BlockStack.holds_cons.mpr ⟨?_, h⟩, by simp⟩
    rw [Block.held_of_ofHeader hopen]
    simp

theorem parts_isFrom {texts : List String} (h : stack.Holds (Statement.IsFrom location.filename))
    (hr : (parts settings location source stack texts).result = .ok out) :
    (parts settings location source stack texts).stack.Holds
        (Statement.IsFrom location.filename) ∧
      ∀ s ∈ out, s.IsFrom location.filename := by
  induction texts generalizing stack out with
  | nil =>
    rw [← Except.ok.inj hr]
    exact ⟨h, by simp⟩
  | cons text texts ih =>
    obtain ⟨first, others, hfirst, hothers, rfl⟩ := (parts_cons_eq_ok_iff ..).mp hr
    obtain ⟨hstack, hout⟩ := part_isFrom h hfirst
    obtain ⟨hstack', hout'⟩ := ih hstack hothers
    rw [parts_cons_stack settings location source hfirst]
    refine ⟨hstack', fun s hs => ?_⟩
    rcases List.mem_append.mp hs with hs | hs
    · exact hout s hs
    · exact hout' s hs

theorem line_isFrom {filename : String} {number : Nat} (h : stack.Holds (Statement.IsFrom filename))
    (hr : (line settings ⟨filename, number⟩ stack source).result = .ok out) :
    (line settings ⟨filename, number⟩ stack source).stack.Holds (Statement.IsFrom filename) ∧
      ∀ s ∈ out, s.IsFrom filename := by
  unfold line at hr ⊢
  cases ht : Line.statements (Line.clean source) with
  | error e =>
    rw [ht] at hr
    cases hr
  | ok texts =>
    simp only [ht] at hr ⊢
    exact parts_isFrom h hr

end File

/-- What is kept of judged statements is among them. -/
theorem mem_of_judged {options : Options} {statements : List Statement} {verdicts : List Verdict}
    (h : statements.mapM (judge options) = .ok verdicts) :
    ∀ s ∈ verdicts.filterMap Verdict.statement?, s ∈ statements := by
  intro s hs
  obtain ⟨verdict, hverdict, hs⟩ := List.mem_filterMap.mp hs
  obtain ⟨s', hs', hjudge⟩ := Except.exists_of_mem_mapM h verdict hverdict
  rw [judge_eq] at hjudge
  split at hjudge
  · rw [← Except.ok.inj hjudge] at hs
    obtain rfl := Option.some.inj hs
    exact hs'
  · next f hf =>
    cases hr : reject options f.rejection f.provenance with
    | error e =>
      rw [hr] at hjudge
      cases hjudge
    | ok warning =>
      rw [hr] at hjudge
      rw [← Except.ok.inj hjudge] at hs
      cases hs

/-! ## Symbols merged in front -/

/-- The same progress of a unit that started from other symbols. -/
def Progress.seeded (seed : Symbols) (p : Progress) : Progress :=
  { p with symbols := seed.merge p.symbols }

theorem Progress.stack_seeded (seed : Symbols) (p : Progress) : (p.seeded seed).stack = p.stack :=
  rfl

section Seed

variable {settings : Settings} {filename : String} {seed : Symbols}

theorem declare_seeded (hseed : seed.AvoidsFile filename) {location : Location}
    (hl : location.filename = filename) (symbols : Symbols) (directive : Directive) :
    declare (seed.merge symbols) location directive =
      seed.merge (declare symbols location directive) := by
  cases directive with
  | function signature => exact Symbols.merge_define_foldl (hseed.avoids hl) symbols _
  | _ => rfl

theorem directiveLine_seeded (hseed : seed.AvoidsFile filename) {location : Location}
    (hl : location.filename = filename) (p : Progress) (source : String) :
    directiveLine location (p.seeded seed) source =
      (directiveLine location p source).map (Progress.seeded seed) := by
  unfold directiveLine
  rw [Progress.stack_seeded]
  cases p.stack.isEmpty with
  | false => rfl
  | true =>
    simp only [Bool.not_true, Bool.false_eq_true, if_false]
    cases Directive.parse source with
    | error e => rfl
    | ok directive =>
      cases hheader : p.header.apply directive with
      | error e => simp [bind, Except.bind, Progress.seeded, hheader, Except.mapError, Except.map]
      | ok header =>
        simp [bind, Except.bind, pure, Except.pure, Progress.seeded, hheader, Except.mapError,
          Except.map, declare_seeded hseed hl p.symbols directive]

/-- A line does the same whatever symbols it starts from, and what it records goes behind them. -/
theorem unitLine_seeded (hseed : seed.AvoidsFile filename) {p : Progress}
    (h : p.stack.Holds (Statement.IsFrom filename)) (number : Nat) (source : String) :
    unitLine settings filename (p.seeded seed) number source =
      (unitLine settings filename p number source).map (Progress.seeded seed) := by
  cases hd : Directive.isDirective source with
  | true =>
    simp only [unitLine, hd, if_true]
    exact directiveLine_seeded hseed rfl p source
  | false =>
    cases hr : (line settings ⟨filename, number⟩ p.stack source).result with
    | error e =>
      simp only [unitLine, hd, Bool.false_eq_true, if_false, Progress.stack_seeded, hr, Except.map]
    | ok statements =>
      cases hv : statements.mapM (judge settings.options) with
      | error e =>
        simp only [unitLine, hd, Bool.false_eq_true, if_false, Progress.stack_seeded, hr, hv, bind,
          Except.bind, Except.map]
      | ok verdicts =>
        have havoids : ∀ s ∈ verdicts.filterMap Verdict.statement?, seed.Avoids s.location :=
          fun s hs => hseed.avoids ((line_isFrom h hr).2 s (mem_of_judged hv s hs))
        rw [unitLine_of_verdicts (p := p.seeded seed) hd hr hv, unitLine_of_verdicts hd hr hv]
        simp only [Except.map, Progress.seeded, Progress.record, Symbols.merge_foldl_add havoids]

theorem unitLine_isFrom {p q : Progress} {number : Nat} {source : String}
    (h : p.stack.Holds (Statement.IsFrom filename))
    (hq : unitLine settings filename p number source = .ok q) :
    q.stack.Holds (Statement.IsFrom filename) := by
  rcases unitLine_cases hq with ⟨-, hstack, -⟩ | ⟨-, statements, verdicts, hr, -, rfl⟩
  · rw [hstack]
    exact h
  · simpa only [Progress.stack_record] using (line_isFrom h hr).1

theorem unitLines_seeded (hseed : seed.AvoidsFile filename) {p : Progress}
    (h : p.stack.Holds (Statement.IsFrom filename)) (number : Nat) (lines : List String) :
    unitLines settings filename (p.seeded seed) number lines =
      (unitLines settings filename p number lines).map (Progress.seeded seed) := by
  induction lines generalizing p number with
  | nil => rfl
  | cons source lines ih =>
    rw [unitLines, unitLines, unitLine_seeded hseed h]
    cases hq : unitLine settings filename p number source with
    | error e => rfl
    | ok q => exact ih (unitLine_isFrom h hq) (number + 1)

end Seed

/-- **A unit may start from the symbols of other files or have them merged in front.** -/
theorem unit_seed {seed : Symbols} {filename : String} (hseed : seed.AvoidsFile filename)
    (settings : Settings) (source : String) :
    (unit settings filename source seed).map (fun o => (o.statements, o.header, o.symbols)) =
      (unit settings filename source .empty).map fun o =>
        (o.statements, o.header, seed.merge o.symbols) := by
  have hrun : unitLines settings filename { symbols := seed } 1 (sourceLines source) =
      (unitLines settings filename { symbols := .empty } 1 (sourceLines source)).map
        (Progress.seeded seed) :=
    unitLines_seeded hseed (p := {}) BlockStack.holds_nil 1 (sourceLines source)
  simp only [unit, hrun]
  cases unitLines settings filename { symbols := .empty } 1 (sourceLines source) with
  | error e => rfl
  | ok p =>
    -- the open blocks do not depend on the symbols
    simp only [bind, Except.bind, Except.map, Progress.stack_seeded]
    cases p.stack.finish <;> rfl

/-- **Symbols are a homomorphism from lists of statements.**  Statements with no place in common
may be recorded in two parts and merged; merging is associative and has the empty symbols as its
unit; and a unit that starts from symbols with no definition in its file gives the statements and
header, or the error, that it gives from none, and the two merged as its symbols. -/
theorem symbols_homomorphism :
    (∀ xs ys : List Statement, (∀ x ∈ xs, ∀ y ∈ ys, x.location ≠ y.location) →
      (xs ++ ys).foldl Symbols.add .empty =
        (xs.foldl Symbols.add .empty).merge (ys.foldl Symbols.add .empty)) ∧
    (∀ a b c : Symbols, (a.merge b).merge c = a.merge (b.merge c)) ∧
    (∀ s : Symbols, s.merge .empty = s ∧ Symbols.empty.merge s = s) ∧
    ∀ (settings : Settings) (filename source : String) (seed : Symbols),
      (∀ name, ∀ d ∈ seed.definitions.values name, d.location.filename ≠ filename) →
        (unit settings filename source seed).map (fun o => (o.statements, o.header, o.symbols)) =
          (unit settings filename source .empty).map fun o =>
            (o.statements, o.header, seed.merge o.symbols) := by
  refine ⟨fun xs ys h => Symbols.foldl_add_append h, Symbols.merge_assoc, fun s => ?_, ?_⟩
  · exact ⟨s.merge_empty, s.empty_merge⟩
  · intro settings filename source seed hseed
    exact unit_seed hseed settings source

/-- A unit that reads a variable of a library. -/
theorem symbols_homomorphism_library :
    let seed := Symbols.empty.define "speed" .number ⟨"lib.mlogx", 1⟩
    let source := "set x speed\n&for i of x y \x7b\nprint $i\n\x7d"
    ∃ output output', unit {} "main.mlogx" source seed = .ok output' ∧
      unit {} "main.mlogx" source .empty = .ok output ∧
        output.statements.map Statement.text = ["set x speed", "print x", "print y"] ∧
          output'.statements = output.statements ∧ output'.symbols = seed.merge output.symbols := by
  intro seed source
  have hseed : ∀ name, ∀ d ∈ seed.definitions.values name, d.location.filename ≠ "main.mlogx" := by
    intro name d hd
    rcases Symbols.mem_define hd with hd | hd
    · cases hd
    · rw [hd]
      decide
  have hunit := symbols_homomorphism.2.2.2 {} "main.mlogx" source seed hseed
  have htexts : (unit {} "main.mlogx" source .empty).toOption.map
      (fun output => output.statements.map Statement.text) =
        some ["set x speed", "print x", "print y"] := by
    decide +kernel
  obtain ⟨output, h, houtput⟩ := Except.exists_of_toOption_map htexts
  rw [h] at hunit
  cases h' : unit {} "main.mlogx" source seed with
  | error e =>
    rw [h'] at hunit
    cases hunit
  | ok output' =>
    rw [h'] at hunit
    simp only [Except.map, Except.ok.injEq, Prod.mk.injEq] at hunit
    exact ⟨output, output', rfl, h, houtput, hunit.1, hunit.2.2⟩

end Compile

end Mlog
