import Mlog.Proofs.Block.Hold
import Mlog.Proofs.Compile.Run

/-!
# What a unit reads, releases and refuses

A run of the compiler leaves little behind: a unit that fails gives its error, and one that succeeds
gives its output.  This file says what happens on the way, in terms of the run itself.  An `Entry`
is a statement of a line that has tokens and is no block syntax, together with the blocks that are
open around it; the `entries` of a unit are all those it gets to.  A line releases statements that
came out of the blocks (`released`), and a `Refusal` is an entry or a released statement that means
nothing.

Each level of the compiler has one lemma that says all it can do (`Entry.compile_cases`,
`blockLine_cases`, `unitLine_cases`), and later files argue from these.
-/
set_option autoImplicit false

namespace Mlog

/-- A rejection with the line that it is about. -/
structure Refusal where
  rejection : Rejection
  provenance : Provenance
  deriving DecidableEq, Repr

namespace Refusal

def warning (f : Refusal) : Diagnostic := ⟨.skipped f.rejection, some f.provenance.location⟩

def error (f : Refusal) : CompileError :=
  .rejected f.rejection f.provenance.location f.provenance.source

end Refusal

/-- Whether a diagnostic says that a line was skipped. -/
def Diagnostic.isSkip (d : Diagnostic) : Bool :=
  match d.finding with
  | .skipped _ => true
  | _ => false

theorem Refusal.isSkip_warning (f : Refusal) : f.warning.isSkip = true := rfl

/-- Why a statement that came out of the blocks does not go to the output. -/
def Statement.refusal? (s : Statement) : Option Refusal :=
  if s.label?.isSome then none
  else match Instruction.resolve s.tokens with
    | .ok _ => none
    | .error r => some ⟨r, s.provenance⟩

theorem Statement.provenance_of_refusal {s : Statement} {f : Refusal} (h : s.refusal? = some f) :
    f.provenance = s.provenance := by
  unfold Statement.refusal? at h
  split at h
  · cases h
  · split at h
    · cases h
    · rw [← Option.some.inj h]

namespace Compile

/-! ## Entries -/

/-- A statement of a line that is a label or an instruction, inside the blocks open around it. -/
structure Entry where
  stack : BlockStack
  first : String
  rest : List String
  provenance : Provenance
  noKeyword : Instruction.isBlockKeyword first = false

namespace Entry

def tokens (e : Entry) : List String := e.first :: e.rest

/-- Why the statement is no instruction, if it is not even a label. -/
def refusal? (e : Entry) : Option Refusal :=
  match labelOf? e.tokens with
  | some _ => none
  | none =>
    match Instruction.resolve e.tokens with
    | .ok _ => none
    | .error r => some ⟨r, e.provenance⟩

/-- What the statement becomes before it passes through the blocks. -/
def statements (e : Entry) : List Statement :=
  match labelOf? e.tokens with
  | some label => [⟨[e.stack.qualify label ++ ":"], e.provenance⟩]
  | none =>
    match Instruction.resolve e.tokens with
    | .ok o => (lower e.stack o e.tokens e.provenance).toOption.getD []
    | .error _ => []

end Entry

/-- The entry that a statement of a line is. -/
def entryOf? (settings : Settings) (location : Location) (source : String) (stack : BlockStack)
    (text : String) : Option Entry :=
  match statementTokens settings text with
  | .ok (first :: rest) =>
    if h : Instruction.isBlockKeyword first = false then
      some ⟨stack, first, rest, ⟨location.filename, location.line, source, text,
        Reference.fill (constantText settings.constants) text⟩, h⟩
    else none
  | _ => none

/-- The entries of a line, up to the first statement that fails. -/
def partsEntries (settings : Settings) (location : Location) (source : String) :
    BlockStack → List String → List Entry
  | _, [] => []
  | stack, text :: rest =>
    let first := part settings location source stack text
    (entryOf? settings location source stack text).toList ++
      match first.result with
      | .error _ => []
      | .ok _ => partsEntries settings location source first.stack rest

def lineEntries (settings : Settings) (location : Location) (stack : BlockStack)
    (source : String) : List Entry :=
  match Line.statements (Line.clean source) with
  | .error _ => []
  | .ok texts => partsEntries settings location source stack texts

/-! ## Along a unit -/

section Unit

variable (settings : Settings) (filename : String)

/-- What `view` sees at each line of a unit, up to the first line that fails. -/
def collect {α : Type} (view : Progress → Nat → String → List α) :
    Progress → Nat → List String → List α
  | _, _, [] => []
  | p, number, source :: rest =>
    view p number source ++
      match unitLine settings filename p number source with
      | .error _ => []
      | .ok q => collect view q (number + 1) rest

/-- The entries of a line of a unit; a directive has none. -/
def entriesAt (p : Progress) (number : Nat) (source : String) : List Entry :=
  if Directive.isDirective source then []
  else lineEntries settings ⟨filename, number⟩ p.stack source

/-- The statements that come out of the blocks at a line. -/
def releasedAt (p : Progress) (number : Nat) (source : String) : List Statement :=
  if Directive.isDirective source then []
  else (line settings ⟨filename, number⟩ p.stack source).result.toOption.getD []

/-- What is refused at a line: its entries first, and then what it releases. -/
def refusedAt (p : Progress) (number : Nat) (source : String) : List Refusal :=
  (entriesAt settings filename p number source).filterMap Entry.refusal? ++
    (releasedAt settings filename p number source).filterMap Statement.refusal?

variable (source : String) (seed : Symbols)

def entries : List Entry :=
  collect settings filename (entriesAt settings filename) { symbols := seed } 1
    (sourceLines source)

/-- What comes out of the blocks of a unit. -/
def released : List Statement :=
  collect settings filename (releasedAt settings filename) { symbols := seed } 1
    (sourceLines source)

/-- What is refused in a unit, in order. -/
def refusals : List Refusal :=
  collect settings filename (refusedAt settings filename) { symbols := seed } 1
    (sourceLines source)

end Unit

/-! ## What an entry does -/

theorem judge_eq (options : Options) (s : Statement) :
    judge options s =
      match s.refusal? with
      | none => .ok (.kept s)
      | some f => (reject options f.rejection f.provenance).map .dropped := by
  unfold judge Statement.refusal?
  cases s.label?.isSome with
  | true => rfl
  | false => cases Instruction.resolve s.tokens <;> rfl

namespace Entry

theorem provenance_of_refusal {e : Entry} {f : Refusal} (h : e.refusal? = some f) :
    f.provenance = e.provenance := by
  unfold refusal? at h
  split at h
  · cases h
  · split at h
    · cases h
    · rw [← Option.some.inj h]

variable (e : Entry) (options : Options)

def compile : Step := statement options e.stack e.tokens e.provenance

theorem compile_eq :
    e.compile options =
      match labelOf? e.tokens with
      | some label => emit [] e.stack [⟨[e.stack.qualify label ++ ":"], e.provenance⟩]
      | none => instruction options e.stack e.tokens e.provenance := by
  have hkeyword : ¬ Instruction.isBlockKeyword e.first = true := by simp [e.noKeyword]
  exact if_neg hkeyword

/-- The warning about an instruction that only world processors run. -/
def worldWarnings : List Diagnostic :=
  match labelOf? e.tokens, Instruction.resolve e.tokens with
  | none, .ok o =>
    if o.worldOnly && !options.worldProcessor then
      [⟨.worldOnly o.mnemonic, some e.provenance.location⟩]
    else []
  | _, _ => []

/-- **What an entry can do**: it is refused, it contradicts the instruction set, or its statements
pass through the blocks. -/
theorem compile_cases :
    (∃ f, e.refusal? = some f ∧ e.statements = [] ∧
      e.compile options =
        match reject options f.rejection f.provenance with
        | .error error => ⟨[], e.stack, .error error⟩
        | .ok warning => ⟨[warning], e.stack, .ok []⟩) ∨
    (e.refusal? = none ∧ ∃ error,
      ∀ options, e.compile options = ⟨e.worldWarnings options, e.stack, .error error⟩) ∨
    (e.refusal? = none ∧
      ∀ options, e.compile options = emit (e.worldWarnings options) e.stack e.statements) := by
  unfold refusal? statements worldWarnings
  cases hl : labelOf? e.tokens with
  | some label =>
    refine Or.inr (Or.inr ⟨rfl, fun options => ?_⟩)
    rw [compile_eq, hl]
  | none =>
    cases hr : Instruction.resolve e.tokens with
    | error r =>
      refine Or.inl ⟨⟨r, e.provenance⟩, rfl, rfl, ?_⟩
      rw [compile_eq, hl]
      cases hj : reject options r e.provenance <;> simp only [instruction, hr, hj]
    | ok o =>
      -- an expansion that means nothing is an error of the instruction set, strict or not
      cases hlow : lower e.stack o e.tokens e.provenance with
      | error error =>
        refine Or.inr (Or.inl ⟨rfl, error, fun options => ?_⟩)
        rw [compile_eq, hl]
        simp only [instruction, hr, hlow]
      | ok out =>
        refine Or.inr (Or.inr ⟨rfl, fun options => ?_⟩)
        rw [compile_eq, hl]
        simp only [instruction, hr, hlow]
        rfl

theorem skips_worldWarnings : (e.worldWarnings options).filter Diagnostic.isSkip = [] := by
  unfold worldWarnings
  split
  · split <;> rfl
  · rfl

/-- An entry that is not refused takes no notice of strictness, and skips nothing. -/
theorem compile_of_accepted (h : e.refusal? = none) (b : Bool) :
    e.compile { options with strict := b } = e.compile options ∧
      (e.compile options).diagnostics.filter Diagnostic.isSkip = [] := by
  rcases e.compile_cases options with ⟨f, hf, -⟩ | ⟨-, error, hc⟩ | ⟨-, hc⟩
  · rw [h] at hf
    cases hf
  · rw [hc, hc]
    exact ⟨rfl, e.skips_worldWarnings options⟩
  · rw [hc, hc]
    exact ⟨rfl, e.skips_worldWarnings options⟩

/-- What an entry becomes passes through the blocks.  One that is refused and left out becomes
nothing, and nothing passes. -/
theorem pass_of_compile {out : List Statement} (h : (e.compile options).result = .ok out) :
    e.stack.pass e.statements = ((e.compile options).stack, out) := by
  rcases e.compile_cases options with ⟨f, -, hs, hc⟩ | ⟨-, error, hc⟩ | ⟨-, hc⟩
  · rw [hs, BlockStack.pass_nil]
    rw [hc] at h ⊢
    cases hr : reject options f.rejection f.provenance with
    | error error =>
      rw [hr] at h
      cases h
    | ok warning =>
      rw [hr] at h
      rw [← Except.ok.inj h]
  · rw [hc] at h
    cases h
  · rw [hc] at h ⊢
    rw [← Except.ok.inj h]
    rfl

theorem lower_of_compile {e : Entry} {options : Options} {out : List Statement} {o : Overload}
    (h : (e.compile options).result = .ok out) (hl : labelOf? e.tokens = none)
    (hr : Instruction.resolve e.tokens = .ok o) :
    lower e.stack o e.tokens e.provenance = .ok e.statements := by
  rw [compile_eq, hl] at h
  unfold statements
  rw [hl, hr]
  simp only [instruction, hr] at h ⊢
  cases hlow : lower e.stack o e.tokens e.provenance with
  | error error =>
    rw [hlow] at h
    cases h
  | ok lines => rfl

end Entry

section Part

variable {settings : Settings} {location : Location} {source text : String} {stack : BlockStack}

theorem entryOf?_stack {e : Entry} (h : entryOf? settings location source stack text = some e) :
    e.stack = stack := by
  unfold entryOf? at h
  split at h
  · split at h
    · rw [← Option.some.inj h]
    · cases h
  · cases h

/-- What an entry was read from. -/
theorem of_entryOf? {e : Entry} (h : entryOf? settings location source stack text = some e) :
    statementTokens settings text = .ok e.tokens ∧ e.provenance.cleaned = text ∧
      e.provenance.modified = Reference.fill (constantText settings.constants) text := by
  unfold entryOf? at h
  split at h
  · next first rest htokens =>
    split at h
    · obtain rfl := Option.some.inj h
      exact ⟨htokens, rfl, rfl⟩
    · cases h
  · cases h

/-- The warnings about constants that a statement names and that have no value. -/
def constantWarnings (settings : Settings) (location : Location) (stack : BlockStack)
    (text : String) : List Diagnostic :=
  (Reference.substitute (constantText settings.constants) stack.loopVariables
    text).unresolved.map fun name => ⟨.undefinedConstant name, some location⟩

theorem skips_constantWarnings :
    (constantWarnings settings location stack text).filter Diagnostic.isSkip = [] := by
  rw [List.filter_eq_nil_iff]
  intro d hd
  obtain ⟨name, -, rfl⟩ := List.mem_map.mp hd
  simp [Diagnostic.isSkip]

/-- What a statement of a line does when it is an entry. -/
theorem part_of_entry {e : Entry} (h : entryOf? settings location source stack text = some e) :
    part settings location source stack text =
      { e.compile settings.options with
        diagnostics := constantWarnings settings location stack text ++
          (e.compile settings.options).diagnostics } := by
  unfold entryOf? statementTokens at h
  unfold part
  simp only [Reference.substitute]
  cases ht : Line.tokens (Reference.fill (constantText settings.constants) text) with
  | error e' =>
    rw [ht] at h
    cases h
  | ok tokens =>
    rw [ht] at h
    cases tokens with
    | nil => cases h
    | cons first' rest' =>
      simp only at h
      split at h
      · rw [← Option.some.inj h]
        rfl
      · cases h

/-- A statement that is no entry is empty or block syntax, and takes no notice of the options. -/
theorem part_of_not_entry (h : entryOf? settings location source stack text = none) :
    (∃ error, ∀ options, part { settings with options } location source stack text =
      ⟨constantWarnings settings location stack text, stack, .error error⟩) ∨
    (∀ options, part { settings with options } location source stack text =
      ⟨constantWarnings settings location stack text, stack, .ok []⟩) ∨
    ∃ tokens, ∀ options, part { settings with options } location source stack text =
      { blockLine stack tokens location with
        diagnostics := constantWarnings settings location stack text ++
          (blockLine stack tokens location).diagnostics } := by
  unfold entryOf? statementTokens at h
  unfold part
  simp only [Reference.substitute]
  cases ht : Line.tokens (Reference.fill (constantText settings.constants) text) with
  | error e => exact Or.inl ⟨_, fun options => rfl⟩
  | ok tokens =>
    rw [ht] at h
    cases tokens with
    | nil =>
      refine Or.inr (Or.inl fun options => ?_)
      simp only [statement, List.append_nil]
      rfl
    | cons first rest =>
      cases hk : Instruction.isBlockKeyword first with
      | false =>
        simp only [hk, dif_pos] at h
        cases h
      | true =>
        refine Or.inr (Or.inr ⟨first :: rest, fun options => ?_⟩)
        simp only [statement, hk, if_true]
        rfl

end Part

/-! ## Block syntax -/

/-- The only warning about a header is that its condition is unclear. -/
theorem skips_of_ofHeader {kind : BlockKind} {header : List String} {location : Location}
    {block : Block} {warnings : List Diagnostic}
    (h : Block.ofHeader kind header location = .ok (block, warnings)) :
    warnings.filter Diagnostic.isSkip = [] := by
  cases kind with
  | scope =>
    simp only [Block.ofHeader] at h
    split at h
    · obtain ⟨-, rfl⟩ := Prod.mk.inj (Except.ok.inj h)
      rfl
    · cases h
  | loop =>
    cases hp : Block.loopParts header with
    | error fault =>
      rw [Block.ofHeader, hp] at h
      cases h
    | ok parts =>
      rw [Block.ofHeader, hp] at h
      obtain ⟨-, rfl⟩ := Prod.mk.inj (Except.ok.inj h)
      rfl
  | conditional =>
    simp only [Block.ofHeader] at h
    split at h
    · obtain ⟨-, rfl⟩ := Prod.mk.inj (Except.ok.inj h)
      rfl
    · obtain ⟨-, rfl⟩ := Prod.mk.inj (Except.ok.inj h)
      rfl
  | close => cases h

section Block

variable {stack : BlockStack} {tokens : List String} {location : Location}

/-- What block syntax can do: it opens a block that keeps nothing back, or ends one.  It skips
nothing. -/
theorem blockLine_cases :
    (blockLine stack tokens location).diagnostics.filter Diagnostic.isSkip = [] ∧
      ∀ out, (blockLine stack tokens location).result = .ok out →
        (∃ b : Block, b.held = [] ∧ (blockLine stack tokens location).stack = b :: stack ∧
          out = []) ∨
        stack.close = .ok ((blockLine stack tokens location).stack, out) := by
  unfold blockLine
  split
  · rcases closeBlock_cases stack (tokens.drop 1) location with ⟨fault, hc⟩ | ⟨r, -, hr, hc⟩
    · rw [hc]
      exact ⟨rfl, fun out h => nomatch h⟩
    · rw [hc]
      refine ⟨rfl, fun out h => Or.inr ?_⟩
      rw [hr, ← Except.ok.inj h]
  · split
    · rcases openBlock_cases stack tokens.dropLast location with ⟨error, -, ho⟩ |
        ⟨o, kind, block, warnings, -, -, hb, ho⟩
      · rw [ho]
        exact ⟨rfl, fun out h => nomatch h⟩
      · rw [ho]
        exact ⟨skips_of_ofHeader hb, fun out h =>
          Or.inl ⟨block, Block.held_of_ofHeader hb, rfl, (Except.ok.inj h).symm⟩⟩
    · exact ⟨rfl, fun out h => nomatch h⟩

end Block

/-! ## Lines of a unit -/

/-- What a line of a unit can do: it is a directive, which stands outside all blocks and leaves
the statements alone, or its statements are judged and recorded. -/
theorem unitLine_cases {settings : Settings} {filename : String} {p q : Progress} {number : Nat}
    {source : String} (h : unitLine settings filename p number source = .ok q) :
    (Directive.isDirective source = true ∧ q.stack = p.stack ∧ q.statements = p.statements ∧
      q.diagnostics = p.diagnostics) ∨
    (Directive.isDirective source = false ∧ ∃ statements verdicts,
      (line settings ⟨filename, number⟩ p.stack source).result = .ok statements ∧
        statements.mapM (judge settings.options) = .ok verdicts ∧
          q = { p with
            stack := (line settings ⟨filename, number⟩ p.stack source).stack
            diagnostics := p.diagnostics ++
              (line settings ⟨filename, number⟩ p.stack source).diagnostics }.record verdicts) := by
  unfold unitLine at h
  cases hd : Directive.isDirective source with
  | true =>
    -- a directive inside a block is an error, and elsewhere it changes the header only
    simp only [hd, if_true] at h
    unfold directiveLine at h
    split at h
    · cases h
    · rw [Except.mapError_eq_ok_iff] at h
      obtain ⟨directive, -, h⟩ := Except.bind_eq_ok_iff.mp h
      obtain ⟨header, -, h⟩ := Except.bind_eq_ok_iff.mp h
      rw [← Except.ok.inj h]
      exact Or.inl ⟨rfl, rfl, rfl, rfl⟩
  | false =>
    simp only [hd, Bool.false_eq_true, if_false] at h
    cases hr : (line settings ⟨filename, number⟩ p.stack source).result with
    | error e =>
      rw [hr] at h
      cases h
    | ok statements =>
      rw [hr] at h
      obtain ⟨verdicts, hv, h⟩ := Except.bind_eq_ok_iff.mp h
      exact Or.inr ⟨rfl, statements, verdicts, rfl, hv, (Except.ok.inj h).symm⟩

end Compile

end Mlog
