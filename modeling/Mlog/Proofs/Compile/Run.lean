import Mlog.Compile.Unit
import Mlog.Proofs.Except

/-!
# Runs of the compiler

A unit is a run of lines and a line a run of statements; both stop at the first that fails.  This
file says so once for each level, so that a question about a whole unit becomes a question about
one statement: where a run fails (`parts_eq_error_iff`, `unitLines_eq_error_iff`), and which
statement a unit gets to (`Reaches`).  It also says what a statement can do that closes or opens a
block (`closeBlock_cases`, `openBlock_cases`).
-/
set_option autoImplicit false

namespace Mlog.Compile

/-! ## Statements

What an instruction gives, and the blocks it leaves open, by how far it gets. -/

theorem baseOverload_eq_ok_iff {tokens line : List String} {location : Location} {o : Overload} :
    baseOverload tokens line location = .ok o ↔
      Instruction.resolve line = .ok o ∧ o.expansion = .asWritten := by
  unfold baseOverload
  cases hr : Instruction.resolve line with
  | error r => simp
  | ok c =>
    by_cases hx : c.expansion = .asWritten
    · simp only [hx, if_true, Except.ok.injEq]
      constructor
      · rintro rfl
        exact ⟨rfl, hx⟩
      · exact fun h => h.1
    · simp only [hx, if_false, Except.ok.injEq, reduceCtorEq, false_iff]
      rintro ⟨rfl, h⟩
      exact hx h

/-- What an instruction is lowered to: the lines it expands to, each with the scopes in front of
the variables that its own overload says it has. -/
theorem exists_of_mem_lower {stack : BlockStack} {o : Overload} {tokens : List String}
    {provenance : Provenance} {out : List Statement}
    (h : lower stack o tokens provenance = .ok out) :
    ∀ s ∈ out, ∃ line ∈ o.expand tokens, ∃ base, Instruction.resolve line = .ok base ∧
      base.expansion = .asWritten ∧ s = ⟨qualifyLine stack base line, provenance⟩ := by
  intro s hs
  obtain ⟨line, hline, h⟩ := Except.exists_of_mem_mapM h s hs
  obtain ⟨base, hbase, h⟩ := Except.bind_eq_ok_iff.mp h
  obtain ⟨hr, hx⟩ := baseOverload_eq_ok_iff.mp hbase
  exact ⟨line, hline, base, hr, hx, (Except.ok.inj h).symm⟩

/-- A base instruction with the open scopes in front of the variables that it says it has. -/
def scopedLine (stack : BlockStack) (line : List String) : List String :=
  match Instruction.resolve line with
  | .ok base => qualifyLine stack base line
  | .error _ => line

theorem lower_eq {stack : BlockStack} {o : Overload} {tokens : List String}
    {provenance : Provenance} {out : List Statement}
    (h : lower stack o tokens provenance = .ok out) :
    out = (o.expand tokens).map fun line => ⟨scopedLine stack line, provenance⟩ := by
  refine Except.eq_map_of_mapM (fun line s hs => ?_) h
  obtain ⟨base, hbase, hs⟩ := Except.bind_eq_ok_iff.mp hs
  rw [scopedLine, (baseOverload_eq_ok_iff.mp hbase).1]
  exact (Except.ok.inj hs).symm

theorem resolve_of_lower {stack : BlockStack} {o : Overload} {tokens : List String}
    {provenance : Provenance} {out : List Statement}
    (h : lower stack o tokens provenance = .ok out) :
    ∀ line ∈ o.expand tokens, ∃ base, Instruction.resolve line = .ok base ∧
      base.expansion = .asWritten := by
  intro line hline
  obtain ⟨s, hs⟩ := Except.mapM_isOk_iff.mp ⟨out, h⟩ line hline
  obtain ⟨base, hbase, -⟩ := Except.bind_eq_ok_iff.mp hs
  exact ⟨base, baseOverload_eq_ok_iff.mp hbase⟩

section Instruction

variable {options : Options} {stack : BlockStack} {tokens : List String}
  {provenance : Provenance} {o : Overload}

theorem instruction_rejected {r : Rejection} (h : Instruction.resolve tokens = .error r) :
    (instruction options stack tokens provenance).result =
        (reject options r provenance).map (fun _ => []) ∧
      (instruction options stack tokens provenance).stack = stack := by
  unfold instruction
  simp only [h]
  cases reject options r provenance <;> exact ⟨rfl, rfl⟩

theorem instruction_failed {e : CompileError} (h : Instruction.resolve tokens = .ok o)
    (hl : lower stack o tokens provenance = .error e) :
    (instruction options stack tokens provenance).result = .error e ∧
      (instruction options stack tokens provenance).stack = stack := by
  simp [instruction, h, hl]

theorem instruction_emitted {statements : List Statement} (h : Instruction.resolve tokens = .ok o)
    (hl : lower stack o tokens provenance = .ok statements) :
    (instruction options stack tokens provenance).result = .ok (stack.pass statements).2 ∧
      (instruction options stack tokens provenance).stack = (stack.pass statements).1 := by
  unfold instruction
  simp only [h, hl]
  exact ⟨rfl, rfl⟩

end Instruction

/-! ## Blocks

What becomes of the brace that closes a block, and of the header that opens one. -/

section Block

variable {stack : BlockStack} {header : List String} {location : Location}

/-- What a closing brace can do: fail, and leave the open blocks as they are, or end the innermost
one.  Nothing follows a brace that does not fail. -/
theorem closeBlock_cases (stack : BlockStack) (rest : List String) (location : Location) :
    (∃ fault, closeBlock stack rest location = ⟨[], stack, .error (.broken fault location)⟩) ∨
    ∃ r, rest = [] ∧ stack.close = .ok r ∧
      closeBlock stack rest location = ⟨[], r.1, .ok r.2⟩ := by
  unfold closeBlock
  cases rest with
  | cons token rest => exact Or.inl ⟨_, rfl⟩
  | nil =>
    cases hc : stack.close with
    | error fault => exact Or.inl ⟨fault, rfl⟩
    | ok r => exact Or.inr ⟨r, rfl, rfl, rfl⟩

theorem closeBlock_ok {rest : List String} {out : List Statement}
    (h : (closeBlock stack rest location).result = .ok out) :
    rest = [] ∧ stack.close = .ok ((closeBlock stack rest location).stack, out) := by
  rcases closeBlock_cases stack rest location with ⟨fault, hc⟩ | ⟨r, hrest, hr, hc⟩
  · rw [hc] at h
    cases h
  · rw [hc] at h ⊢
    exact ⟨hrest, by rw [hr, ← Except.ok.inj h]⟩

/-- Why a header opens no block: it is no instruction, it is one that opens none, or it does not say
what the block needs. -/
inductive HeaderFails (header : List String) (location : Location) : CompileError → Prop where
  | unresolved {r : Rejection} (hr : Instruction.resolve header = .error r) :
      HeaderFails header location (.broken (.badHeader r) location)
  | blockless {o : Overload} (hr : Instruction.resolve header = .ok o) (hk : o.block = none) :
      HeaderFails header location (.internal (.keywordIsInstruction (header.headD "")) location)
  | atFault {o : Overload} {kind : BlockKind} {fault : Fault}
      (hr : Instruction.resolve header = .ok o) (hk : o.block = some kind)
      (hb : Block.ofHeader kind header location = .error fault) :
      HeaderFails header location (.broken fault location)

/-- What a header can do: fail, and leave the open blocks as they are, or open its block inside
them. -/
theorem openBlock_cases (stack : BlockStack) (header : List String) (location : Location) :
    (∃ e, HeaderFails header location e ∧
      openBlock stack header location = ⟨[], stack, .error e⟩) ∨
    ∃ o kind block warnings, Instruction.resolve header = .ok o ∧ o.block = some kind ∧
      Block.ofHeader kind header location = .ok (block, warnings) ∧
        openBlock stack header location = ⟨warnings, block :: stack, .ok []⟩ := by
  unfold openBlock
  cases hr : Instruction.resolve header with
  | error r => exact Or.inl ⟨_, .unresolved hr, rfl⟩
  | ok o =>
    cases hk : o.block with
    | none => exact Or.inl ⟨_, .blockless hr hk, by simp only [hk]⟩
    | some kind =>
      cases hb : Block.ofHeader kind header location with
      | error fault => exact Or.inl ⟨_, .atFault hr hk hb, by simp only [hk, BlockStack.enter, hb]⟩
      | ok opened =>
        exact Or.inr ⟨o, kind, opened.1, opened.2, rfl, hk, hb,
          by simp only [hk, BlockStack.enter, hb]⟩

theorem openBlock_ok {out : List Statement}
    (h : (openBlock stack header location).result = .ok out) :
    ∃ o kind block warnings, Instruction.resolve header = .ok o ∧ o.block = some kind ∧
      Block.ofHeader kind header location = .ok (block, warnings) ∧
        (openBlock stack header location).stack = block :: stack ∧ out = [] := by
  rcases openBlock_cases stack header location with
    ⟨e, -, hopen⟩ | ⟨o, kind, block, warnings, hr, hk, hb, hopen⟩
  · rw [hopen] at h
    cases h
  · rw [hopen] at h ⊢
    exact ⟨o, kind, block, warnings, hr, hk, hb, rfl, (Except.ok.inj h).symm⟩

theorem openBlock_error {e : CompileError}
    (h : (openBlock stack header location).result = .error e) : HeaderFails header location e := by
  rcases openBlock_cases stack header location with
    ⟨e', hfails, hopen⟩ | ⟨o, kind, block, warnings, -, -, -, hopen⟩
  · rw [hopen] at h
    rwa [← Except.error.inj h]
  · rw [hopen] at h
    cases h

end Block

/-! ## Lines -/

/-- The tokens of a statement, with the constants put in. -/
def statementTokens (settings : Settings) (text : String) :
    Except Line.UnclosedString (List String) :=
  Line.tokens (Reference.fill (constantText settings.constants) text)

/-- A statement is a run of its tokens, or its last string is not closed. -/
theorem part_result (settings : Settings) (location : Location) (source : String)
    (stack : BlockStack) (text : String) :
    (part settings location source stack text).result =
      match statementTokens settings text with
      | .error e => .error (.broken (.unclosedString e) location)
      | .ok tokens =>
        (statement settings.options stack tokens ⟨location.filename, location.line, source, text,
          Reference.fill (constantText settings.constants) text⟩).result := by
  unfold part statementTokens
  simp only [Reference.substitute]
  cases Line.tokens (Reference.fill (constantText settings.constants) text) with
  | error e => rfl
  | ok tokens => rfl

section Line

variable (settings : Settings) (location : Location) (source : String)

theorem parts_nil (stack : BlockStack) :
    parts settings location source stack [] = ⟨[], stack, .ok []⟩ := rfl

/-- A line fails when its first statement does, or the rest after it. -/
theorem parts_cons_eq_error_iff {stack : BlockStack} {text : String} {rest : List String}
    {e : CompileError} :
    (parts settings location source stack (text :: rest)).result = .error e ↔
      (part settings location source stack text).result = .error e ∨
        ∃ out, (part settings location source stack text).result = .ok out ∧
          (parts settings location source (part settings location source stack text).stack
            rest).result = .error e := by
  rw [parts]
  cases hr : (part settings location source stack text).result with
  | error e' => simp [hr]
  | ok out =>
    simp only [reduceCtorEq, Except.ok.injEq, exists_eq_left', false_or]
    cases hrest : (parts settings location source (part settings location source stack text).stack
      rest).result <;> simp [Except.map]

theorem parts_cons_eq_ok_iff {stack : BlockStack} {text : String} {rest : List String}
    {out : List Statement} :
    (parts settings location source stack (text :: rest)).result = .ok out ↔
      ∃ first others, (part settings location source stack text).result = .ok first ∧
        (parts settings location source (part settings location source stack text).stack
          rest).result = .ok others ∧ out = first ++ others := by
  rw [parts]
  cases hr : (part settings location source stack text).result with
  | error e' => simp [hr]
  | ok first =>
    cases hrest : (parts settings location source (part settings location source stack text).stack
      rest).result <;> simp [hrest, Except.map, eq_comm]

/-- The blocks open behind the first statement are where the rest begins. -/
theorem parts_cons_stack {stack : BlockStack} {text : String} {rest : List String}
    {first : List Statement}
    (h : (part settings location source stack text).result = .ok first) :
    (parts settings location source stack (text :: rest)).stack =
      (parts settings location source (part settings location source stack text).stack
        rest).stack := by
  rw [parts]
  simp [h]

/-- **Where a line fails**: at one of its statements, with all before it compiled. -/
theorem parts_eq_error_iff {stack : BlockStack} {texts : List String} {e : CompileError} :
    (parts settings location source stack texts).result = .error e ↔
      ∃ done text rest out, texts = done ++ text :: rest ∧
        (parts settings location source stack done).result = .ok out ∧
          (part settings location source (parts settings location source stack done).stack
            text).result = .error e := by
  induction texts generalizing stack with
  | nil => simp [parts_nil]
  | cons text texts ih =>
    rw [parts_cons_eq_error_iff]
    constructor
    · rintro (h | ⟨first, hfirst, h⟩)
      · exact ⟨[], text, texts, [], rfl, rfl, h⟩
      · obtain ⟨done, text', rest, out, rfl, hdone, herr⟩ := ih.mp h
        refine ⟨text :: done, text', rest, first ++ out, rfl, ?_, ?_⟩
        · exact (parts_cons_eq_ok_iff ..).mpr ⟨first, out, hfirst, hdone, rfl⟩
        · rw [parts_cons_stack settings location source hfirst]
          exact herr
    · rintro ⟨done, text', rest, out, heq, hdone, herr⟩
      cases done with
      | nil =>
        obtain ⟨rfl, rfl⟩ := List.cons.inj heq
        exact Or.inl herr
      | cons d done =>
        obtain ⟨rfl, rfl⟩ := List.cons.inj heq
        obtain ⟨first, others, hfirst, hothers, -⟩ := (parts_cons_eq_ok_iff ..).mp hdone
        rw [parts_cons_stack settings location source hfirst] at herr
        exact Or.inr ⟨first, hfirst, ih.mpr ⟨done, text', rest, others, rfl, hothers, herr⟩⟩

end Line

/-! ## Units -/

/-- **Where a unit fails**: at one of its lines, with all before it compiled. -/
theorem unitLines_eq_error_iff {settings : Settings} {filename : String} {lines : List String}
    {p : Progress} {number : Nat} {e : CompileError} :
    unitLines settings filename p number lines = .error e ↔
      ∃ before line after q, lines = before ++ line :: after ∧
        unitLines settings filename p number before = .ok q ∧
          unitLine settings filename q (number + before.length) line = .error e := by
  induction lines generalizing p number with
  | nil => simp [unitLines]
  | cons line lines ih =>
    rw [unitLines, Except.bind_eq_error_iff]
    constructor
    · rintro (h | ⟨q, hq, h⟩)
      · exact ⟨[], line, lines, p, rfl, rfl, h⟩
      · obtain ⟨before, line', after, q', rfl, hbefore, herr⟩ := ih.mp h
        refine ⟨line :: before, line', after, q', rfl, ?_, ?_⟩
        · rw [unitLines, Except.bind_eq_ok_iff]
          exact ⟨q, hq, hbefore⟩
        · rw [List.length_cons, Nat.add_comm before.length 1, ← Nat.add_assoc]
          exact herr
    · rintro ⟨before, line', after, q, heq, hbefore, herr⟩
      cases before with
      | nil =>
        obtain ⟨rfl, rfl⟩ := List.cons.inj heq
        obtain rfl : p = q := by simpa [unitLines] using hbefore
        exact Or.inl herr
      | cons l before =>
        obtain ⟨rfl, rfl⟩ := List.cons.inj heq
        rw [unitLines, Except.bind_eq_ok_iff] at hbefore
        obtain ⟨q', hq', hbefore⟩ := hbefore
        refine Or.inr ⟨q', hq', ih.mpr ⟨before, line', after, q, rfl, hbefore, ?_⟩⟩
        rw [List.length_cons, Nat.add_comm before.length 1, ← Nat.add_assoc] at herr
        exact herr

/-- A unit gets to a statement that is divided into `tokens`: every line before it and every
statement before it on its own line is compiled. -/
def Reaches (settings : Settings) (filename source : String) (seed : Symbols)
    (tokens : List String) : Prop :=
  ∃ (before after done rest : List String) (line text : String) (p : Progress)
    (out : List Statement),
    sourceLines source = before ++ line :: after ∧
      unitLines settings filename { symbols := seed } 1 before = .ok p ∧
      Directive.isDirective line = false ∧
      Line.statements (Line.clean line) = .ok (done ++ text :: rest) ∧
      (parts settings ⟨filename, 1 + before.length⟩ line p.stack done).result = .ok out ∧
      statementTokens settings text = .ok tokens

end Mlog.Compile
