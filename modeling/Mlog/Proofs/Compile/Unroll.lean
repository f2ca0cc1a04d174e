import Mlog.Proofs.Compile.Conservation
import Mlog.Proofs.Compile.Scope
import Mlog.Proofs.Compile.Strictness
import Mlog.Proofs.Line.Token

/-!
# Loops written out by hand

A loop inside a scope gives the same lines as the scope with the body of the loop written out for
each value, if the scope is put in front of the same operands.  That need not be so: the operand
`$i` is a reference when the loop is read and stays without the scope, and written out it may be a
variable.  `unit_unroll_iff` says that this is the only difference: tokens, expansions and labels
do not depend on whether a variable is bound by a loop or by hand.
-/
set_option autoImplicit false

namespace Mlog.Compile

/-! ## Reading lines -/

/-- A line of code that is one statement with these tokens, and no constant in it. -/
structure Reads (constants : Constants) (line text : String) (tokens : List String) : Prop where
  code : Directive.isDirective line = false
  statement : Line.statements (Line.clean line) = .ok [text]
  noConstant : Reference.fill (constantText constants) text = text
  tokens : Line.tokens text = .ok tokens

section Step

variable {settings : Settings} {filename line text : String} {tokens : List String}
  {p q : Progress} {number : Nat}

/-- Where a line of a unit comes from. -/
def lineProvenance (filename : String) (number : Nat) (line text : String) : Provenance :=
  ⟨filename, number, line, text, text⟩

theorem part_of_reads (filename : String) (number : Nat)
    (h : Reads settings.constants line text tokens) (stack : BlockStack) :
    (part settings ⟨filename, number⟩ line stack text).result =
        (statement settings.options stack tokens
          (lineProvenance filename number line text)).result ∧
      (part settings ⟨filename, number⟩ line stack text).stack =
        (statement settings.options stack tokens
          (lineProvenance filename number line text)).stack := by
  unfold part
  simp only [Reference.substitute, h.noConstant, h.tokens]
  exact ⟨rfl, rfl⟩

/-- A line with one statement does what the statement does. -/
theorem unitLine_of_reads (h : Reads settings.constants line text tokens)
    (hq : unitLine settings filename p number line = .ok q) :
    ∃ out, (statement settings.options p.stack tokens
        (lineProvenance filename number line text)).result = .ok out ∧
      q.stack = (statement settings.options p.stack tokens
        (lineProvenance filename number line text)).stack ∧
      releasedAt settings filename p number line = out := by
  rcases unitLine_cases hq with ⟨hd, -⟩ | ⟨hd, statements, verdicts, hr, -, rfl⟩
  · rw [h.code] at hd
    cases hd
  · have hline : Compile.line settings ⟨filename, number⟩ p.stack line =
        parts settings ⟨filename, number⟩ line p.stack [text] := by
      rw [Compile.line, h.statement]
    obtain ⟨hresult, hstack⟩ := part_of_reads filename number h p.stack
    have hparts := hr
    rw [hline] at hparts
    obtain ⟨first, others, hfirst, hothers, rfl⟩ := (parts_cons_eq_ok_iff ..).mp hparts
    obtain rfl : [] = others := Except.ok.inj hothers
    refine ⟨first ++ [], ?_, ?_, ?_⟩
    · rw [← hresult, hfirst, List.append_nil]
    · rw [← hstack]
      simp only [Progress.record, hline, parts_cons_stack _ _ _ hfirst, parts_nil]
    · simp only [releasedAt, h.code, Bool.false_eq_true, if_false, hr]
      rfl

/-- A line with one statement that is no block syntax has that entry. -/
theorem entriesAt_of_reads {first : String} {rest : List String}
    (h : Reads settings.constants line text (first :: rest))
    (hk : Instruction.isBlockKeyword first = false) :
    entriesAt settings filename p number line =
      [⟨p.stack, first, rest, lineProvenance filename number line text, hk⟩] := by
  have htokens : statementTokens settings text = .ok (first :: rest) := by
    rw [statementTokens, h.noConstant, h.tokens]
  have hentry : entryOf? settings ⟨filename, number⟩ line p.stack text =
      some ⟨p.stack, first, rest, lineProvenance filename number line text, hk⟩ := by
    simp only [entryOf?, htokens, hk, dif_pos, h.noConstant, lineProvenance]
  simp only [entriesAt, h.code, Bool.false_eq_true, if_false, lineEntries, h.statement,
    partsEntries, hentry]
  cases (part settings ⟨filename, number⟩ line p.stack text).result <;> rfl

end Step

/-! ## Block syntax -/

section Block

variable {options : Options} {stack : BlockStack} {provenance : Provenance}
  {out : List Statement}

/-- What a header that is taken opens. -/
theorem statement_header {kind : BlockKind} {first : String} {header : List String}
    (hk : Instruction.isBlockKeyword first = true) (hne : first ≠ "\x7d")
    (hkind : ∀ o ∈ Instruction.overloads first, o.block = some kind)
    (h : (statement options stack (first :: (header ++ ["\x7b"])) provenance).result = .ok out) :
    ∃ block warnings,
      Block.ofHeader kind (first :: header) provenance.location = .ok (block, warnings) ∧
        out = [] ∧ (statement options stack (first :: (header ++ ["\x7b"])) provenance).stack =
          block :: stack := by
  have hopen : statement options stack (first :: (header ++ ["\x7b"])) provenance =
      openBlock stack (first :: header) provenance.location := by
    have hlast : (first :: (header ++ ["\x7b"])).getLast? = some "\x7b" := by
      rw [← List.cons_append, List.getLast?_concat]
    have hdrop : (first :: (header ++ ["\x7b"])).dropLast = first :: header := by
      rw [← List.cons_append, List.dropLast_concat]
    simp only [statement, hk, if_true, blockLine, hlast, hdrop, List.head?_cons, beq_self_eq_true]
    simp [hne]
  rw [hopen] at h ⊢
  obtain ⟨o, kind', block, warnings, hr, hblock, hb, hstack, hout⟩ := openBlock_ok h
  obtain ⟨hmem, hh, -⟩ := Instruction.of_resolve hr
  have hsame := hkind o (Instruction.mem_overloads_iff.mpr ⟨hmem, (Option.some.inj hh).symm⟩)
  obtain rfl := Option.some.inj (hblock.symm.trans hsame)
  exact ⟨block, warnings, hb, hout, hstack⟩

theorem statement_scope {scope : String}
    (h : (statement options stack ["namespace", scope, "\x7b"] provenance).result = .ok out) :
    out = [] ∧ (statement options stack ["namespace", scope, "\x7b"] provenance).stack =
      .scope scope provenance.location :: stack := by
  have hkind : ∀ o ∈ Instruction.overloads "namespace", o.block = some .scope := by
    decide
  have hheader : (statement options stack ("namespace" :: ([scope] ++ ["\x7b"]))
      provenance).result = .ok out := h
  obtain ⟨block, warnings, ho, hout, hstack⟩ :=
    statement_header (by decide) (by decide) hkind hheader
  obtain ⟨rfl, -⟩ := Prod.mk.inj (Except.ok.inj ho)
  exact ⟨hout, hstack⟩

theorem statement_loop {name : String} {values : List String}
    (h : (statement options stack ("&for" :: (name :: "of" :: values ++ ["\x7b"]))
      provenance).result = .ok out) :
    out = [] ∧ (statement options stack ("&for" :: (name :: "of" :: values ++ ["\x7b"]))
      provenance).stack = .loop name values [] provenance.location :: stack := by
  have hkind : ∀ o ∈ Instruction.overloads "&for", o.block = some .loop := by decide
  obtain ⟨block, warnings, ho, hout, hstack⟩ :=
    statement_header (by decide) (by decide) hkind h
  cases values with
  | nil => cases ho
  | cons value values =>
    obtain ⟨rfl, -⟩ := Prod.mk.inj (Except.ok.inj ho)
    exact ⟨hout, hstack⟩

theorem statement_close
    (h : (statement options stack ["\x7d"] provenance).result = .ok out) :
    stack.close = .ok ((statement options stack ["\x7d"] provenance).stack, out) := by
  have hk : Instruction.isBlockKeyword "\x7d" = true := by decide
  have hclose : statement options stack ["\x7d"] provenance =
      closeBlock stack [] provenance.location := by
    simp only [statement, hk, if_true, blockLine, List.head?_cons, beq_self_eq_true,
      List.drop_succ_cons, List.drop_nil]
  rw [hclose] at h ⊢
  exact (closeBlock_ok h).2

end Block

/-! ## A line after the other -/

section Run

variable {settings : Settings} {filename line text first : String} {rest lines : List String}
  {p q r : Progress} {number : Nat}

theorem unitLines_cons_ok (h : unitLines settings filename p number (line :: lines) = .ok r) :
    ∃ q, unitLine settings filename p number line = .ok q ∧
      unitLines settings filename q (number + 1) lines = .ok r ∧
      ∀ (α : Type) (view : Progress → Nat → String → List α),
        collect settings filename view p number (line :: lines) =
          view p number line ++ collect settings filename view q (number + 1) lines := by
  obtain ⟨q, hq, h⟩ := Except.bind_eq_ok_iff.mp h
  refine ⟨q, hq, h, fun α view => ?_⟩
  rw [collect, hq]

theorem unitLine_scope {scope : String}
    (h : Reads settings.constants line text ["namespace", scope, "\x7b"])
    (hq : unitLine settings filename p number line = .ok q) :
    ∃ location, q.stack = .scope scope location :: p.stack ∧
      releasedAt settings filename p number line = [] := by
  obtain ⟨out, hout, hstack, hreleased⟩ := unitLine_of_reads h hq
  obtain ⟨rfl, hopened⟩ := statement_scope hout
  exact ⟨_, hstack.trans hopened, hreleased⟩

theorem unitLine_loop {name : String} {values : List String}
    (h : Reads settings.constants line text ("&for" :: (name :: "of" :: values ++ ["\x7b"])))
    (hq : unitLine settings filename p number line = .ok q) :
    ∃ location, q.stack = .loop name values [] location :: p.stack ∧
      releasedAt settings filename p number line = [] := by
  obtain ⟨out, hout, hstack, hreleased⟩ := unitLine_of_reads h hq
  obtain ⟨rfl, hopened⟩ := statement_loop hout
  exact ⟨_, hstack.trans hopened, hreleased⟩

theorem unitLine_close (h : Reads settings.constants line text ["\x7d"])
    (hq : unitLine settings filename p number line = .ok q) :
    p.stack.close = .ok (q.stack, releasedAt settings filename p number line) := by
  obtain ⟨out, hout, hstack, hreleased⟩ := unitLine_of_reads h hq
  rw [hstack, hreleased]
  exact statement_close hout

/-- A line that is a label or an instruction and is not refused sends its statements through the
open blocks. -/
theorem unitLine_of_entry (h : Reads settings.constants line text (first :: rest))
    (hk : Instruction.isBlockKeyword first = false)
    (hq : unitLine settings filename p number line = .ok q)
    (hnone : refusedAt settings filename p number line = []) :
    ∃ statements : List Statement,
      statements.map Statement.tokens = stated p.stack (first :: rest) ∧
        Compiles (first :: rest) ∧
          p.stack.pass statements = (q.stack, releasedAt settings filename p number line) := by
  obtain ⟨out, hout, hstack, hreleased⟩ := unitLine_of_reads h hq
  let e : Entry := ⟨p.stack, first, rest, lineProvenance filename number line text, hk⟩
  have hcompile : (e.compile settings.options).result = .ok out := hout
  have hrefusal : e.refusal? = none := by
    rw [refusedAt, entriesAt_of_reads h hk] at hnone
    simpa [e] using List.filterMap_eq_nil_iff.mp (List.append_eq_nil_iff.mp hnone).1
  refine ⟨e.statements, e.tokens_statements hcompile, e.compiles hcompile hrefusal, ?_⟩
  rw [hreleased, hstack]
  exact e.pass_of_compile settings.options hcompile

end Run

/-- No block keyword comes about when a label or an instruction is bound. -/
theorem isBlockKeyword_bind {first : String} {rest : List String} (name value : String)
    (h : Compiles (first :: rest)) (hk : Instruction.isBlockKeyword first = false) :
    Instruction.isBlockKeyword (Reference.bind name value first) = false := by
  rcases h with ⟨label, hl⟩ | ⟨o, hr, -⟩
  · obtain ⟨rfl, -⟩ := List.cons.inj (tokens_of_labelOf? hl)
    rw [bind_append_colon]
    refine List.any_eq_false.mpr fun o ho => absurd ?_ (Instruction.plain_of_mem o ?_).2.1
    · rw [(Instruction.mem_overloads_iff.mp ho).2]
      simp
    · exact (Instruction.mem_overloads_iff.mp ho).1
  · obtain ⟨hmem, hh, -⟩ := Instruction.of_resolve hr
    rw [Option.some.inj hh, Reference.bind_of_not_mem (Instruction.plain_of_mem o hmem).1,
      ← Option.some.inj hh]
    exact hk

/-! ## The two programs -/

/-- A loop around one line inside a scope.  The line and its copies are one statement each. -/
structure Unrolling (constants : Constants) where
  scope : String
  /-- the variable of the loop -/
  name : String
  values : List String
  opening : String
  looping : String
  body : String
  closing : String
  text : String
  first : String
  rest : List String
  scope_plain : '$' ∉ scope.toList
  values_quiet : ∀ v ∈ values, Line.Quiet ' ' v.toList
  noKeyword : Instruction.isBlockKeyword first = false
  reads_opening : ∃ text, Reads constants opening text ["namespace", scope, "\x7b"]
  reads_looping : ∃ text,
    Reads constants looping text ("&for" :: (name :: "of" :: values ++ ["\x7b"]))
  reads_body : Reads constants body text (first :: rest)
  reads_closing : ∃ text, Reads constants closing text ["\x7d"]
  reads_copy : ∀ v ∈ values, ∃ tokens,
    Reads constants (Reference.bind name v body) (Reference.bind name v text) tokens

namespace Unrolling

def tokens {constants : Constants} (u : Unrolling constants) : List String := u.first :: u.rest

/-- The program with the loop. -/
def looped {constants : Constants} (u : Unrolling constants) : List String :=
  [u.opening, u.looping, u.body, u.closing, u.closing]

/-- The program with the body written out for each value. -/
def written {constants : Constants} (u : Unrolling constants) : List String :=
  u.opening :: (u.values.map (Reference.bind u.name · u.body) ++ [u.closing])

variable {settings : Settings} (u : Unrolling settings.constants) {filename : String}
  {p r : Progress} {number : Nat}

/-- The loop repeats the lines of its body, bound to each value. -/
theorem run_looped (hp : p.stack = [])
    (h : unitLines settings filename p number u.looped = .ok r)
    (hnone : collect settings filename (refusedAt settings filename) p number u.looped = []) :
    Compiles u.tokens ∧ ∃ stack : BlockStack, stack.scopes = [u.scope] ∧
      (collect settings filename (releasedAt settings filename) p number u.looped).map
          Statement.tokens =
        u.values.flatMap fun v =>
          (stated stack u.tokens).map (·.map (Reference.bind u.name v)) := by
  obtain ⟨_, hopening⟩ := u.reads_opening
  obtain ⟨_, hlooping⟩ := u.reads_looping
  obtain ⟨_, hclosing⟩ := u.reads_closing
  unfold looped at h hnone ⊢
  obtain ⟨p₁, h₁, h, hview₁⟩ := unitLines_cons_ok h
  obtain ⟨p₂, h₂, h, hview₂⟩ := unitLines_cons_ok h
  obtain ⟨p₃, h₃, h, hview₃⟩ := unitLines_cons_ok h
  obtain ⟨p₄, h₄, h, hview₄⟩ := unitLines_cons_ok h
  obtain ⟨p₅, h₅, -, hview₅⟩ := unitLines_cons_ok h
  simp only [hview₁, hview₂, hview₃, hview₄, hview₅, List.append_eq_nil_iff] at hnone ⊢
  obtain ⟨opened, hstack₁, hreleased₁⟩ := unitLine_scope hopening h₁
  obtain ⟨opened', hstack₂, hreleased₂⟩ := unitLine_loop hlooping h₂
  obtain ⟨statements, htokens, hcompiles, hpass⟩ :=
    unitLine_of_entry u.reads_body u.noKeyword h₃ hnone.2.2.1
  have hclose₄ := unitLine_close hclosing h₄
  have hclose₅ := unitLine_close hclosing h₅
  -- the body waits in the loop, the first brace lets it through the scope, and the second one
  -- ends the scope
  rw [hp] at hstack₁
  rw [hstack₁] at hstack₂
  rw [hstack₂] at hpass
  obtain ⟨hstack₃, hreleased₃⟩ := Prod.mk.inj hpass
  rw [← hstack₃] at hclose₄
  obtain ⟨hstack₄, hreleased₄⟩ := Prod.mk.inj (Except.ok.inj hclose₄)
  rw [← hstack₄] at hclose₅
  obtain ⟨-, hreleased₅⟩ := Prod.mk.inj (Except.ok.inj hclose₅)
  refine ⟨hcompiles, p₂.stack, by rw [hstack₂]; rfl, ?_⟩
  rw [hreleased₁, hreleased₂, ← hreleased₃, ← hreleased₄, ← hreleased₅, tokens, ← htokens]
  simp only [Block.release, collect, List.nil_append, List.append_nil, List.map_flatMap,
    List.map_map]
  rfl

theorem tokens_copy {v : String} (hv : v ∈ u.values) {copied : List String}
    (h : Reads settings.constants (Reference.bind u.name v u.body) (Reference.bind u.name v u.text)
      copied) :
    copied = u.tokens.map (Reference.bind u.name v) := by
  -- a value is a token of the header of the loop, so it is not empty
  obtain ⟨_, hlooping⟩ := u.reads_looping
  have hmem : v ∈ "&for" :: (u.name :: "of" :: u.values ++ ["\x7b"]) := by simp [hv]
  obtain ⟨hne, -⟩ := Line.isToken_iff.mp (Line.isToken_of_mem_tokens hlooping.tokens hmem)
  have hbound := Line.tokens_bind u.name hne (u.values_quiet v hv) u.reads_body.tokens
  exact Except.ok.inj (h.tokens.symm.trans hbound)

/-- The copies that are written out, from within the scope. -/
theorem run_copies {opened : Location} {values : List String} (hsub : ∀ v ∈ values, v ∈ u.values)
    (hbody : Compiles u.tokens) (hp : p.stack = [.scope u.scope opened])
    (h : unitLines settings filename p number
      (values.map (Reference.bind u.name · u.body) ++ [u.closing]) = .ok r)
    (hnone : collect settings filename (refusedAt settings filename) p number
      (values.map (Reference.bind u.name · u.body) ++ [u.closing]) = []) :
    (∀ v ∈ values, Compiles (u.tokens.map (Reference.bind u.name v))) ∧
      (collect settings filename (releasedAt settings filename) p number
          (values.map (Reference.bind u.name · u.body) ++ [u.closing])).map Statement.tokens =
        values.flatMap fun v =>
          stated [.scope u.scope opened] (u.tokens.map (Reference.bind u.name v)) := by
  induction values generalizing p number with
  | nil =>
    obtain ⟨_, hclosing⟩ := u.reads_closing
    obtain ⟨q, hq, -, hview⟩ := unitLines_cons_ok h
    have hclose := unitLine_close hclosing hq
    rw [hp] at hclose
    obtain ⟨-, hreleased⟩ := Prod.mk.inj (Except.ok.inj hclose)
    refine ⟨fun v hv => (List.not_mem_nil hv).elim, ?_⟩
    rw [List.map_nil, List.nil_append, hview, ← hreleased]
    rfl
  | cons v values ih =>
    obtain ⟨hv, hsub⟩ := List.forall_mem_cons.mp hsub
    obtain ⟨copied, hcopy⟩ := u.reads_copy v hv
    obtain rfl := u.tokens_copy hv hcopy
    simp only [List.map_cons, List.cons_append] at h hnone ⊢
    obtain ⟨q, hq, h, hview⟩ := unitLines_cons_ok h
    rw [hview, List.append_eq_nil_iff] at hnone
    obtain ⟨statements, htokens, hcompiles, hpass⟩ := unitLine_of_entry hcopy
      (isBlockKeyword_bind u.name v hbody u.noKeyword) hq hnone.1
    rw [hp] at htokens hpass
    obtain ⟨hstack, hreleased⟩ := Prod.mk.inj hpass
    obtain ⟨hrest, houts⟩ := ih hsub hstack.symm h hnone.2
    refine ⟨List.forall_mem_cons.mpr ⟨hcompiles, hrest⟩, ?_⟩
    rw [hview, List.map_append, houts, List.flatMap_cons, ← hreleased]
    exact congrArg (· ++ _) htokens

theorem run_written (hbody : Compiles u.tokens) (hp : p.stack = [])
    (h : unitLines settings filename p number u.written = .ok r)
    (hnone : collect settings filename (refusedAt settings filename) p number u.written = []) :
    (∀ v ∈ u.values, Compiles (u.tokens.map (Reference.bind u.name v))) ∧
      ∃ stack : BlockStack, stack.scopes = [u.scope] ∧
        (collect settings filename (releasedAt settings filename) p number u.written).map
            Statement.tokens =
          u.values.flatMap fun v => stated stack (u.tokens.map (Reference.bind u.name v)) := by
  obtain ⟨_, hopening⟩ := u.reads_opening
  unfold written at h hnone ⊢
  obtain ⟨q, hq, h, hview⟩ := unitLines_cons_ok h
  obtain ⟨opened, hstack, hreleased⟩ := unitLine_scope hopening hq
  rw [hview, List.append_eq_nil_iff] at hnone
  rw [hp] at hstack
  obtain ⟨hcompiles, hout⟩ := u.run_copies (fun v hv => hv) hbody hstack h hnone.2
  refine ⟨hcompiles, [.scope u.scope opened], rfl, ?_⟩
  rw [hview, hreleased, List.nil_append, hout]

end Unrolling

/-- What a unit puts out without being strict is what it puts out at all. -/
theorem unit_withStrict_false {settings : Settings} {filename source : String} {seed : Symbols}
    {output : Output} (h : unit settings filename source seed = .ok output) :
    unit (settings.withStrict false) filename source seed = .ok output := by
  cases hs : settings.options.strict with
  | false =>
    have heq : settings.withStrict false = settings := by
      rw [Settings.withStrict, ← hs]
    rw [heq]
    exact h
  | true =>
    have heq : settings.withStrict true = settings := by
      rw [Settings.withStrict, ← hs]
    rw [← heq, unit_halting] at h
    cases hr : refusals (settings.withStrict false) filename source seed with
    | nil =>
      rw [hr] at h
      exact h
    | cons f rest =>
      rw [hr] at h
      cases h

/-- A unit that skips nothing puts out all that its blocks release. -/
theorem unit_of_no_skip {settings : Settings} (hlenient : settings.options.strict = false)
    {filename source : String} {seed : Symbols} {output : Output}
    (h : unit settings filename source seed = .ok output)
    (hskip : output.diagnostics.filter Diagnostic.isSkip = []) :
    refusals settings filename source seed = [] ∧
      output.statements = released settings filename source seed := by
  obtain ⟨hstatements, hskips⟩ := unit_adds hlenient h
  rw [hskip] at hskips
  have hnone := List.map_eq_nil_iff.mp hskips.symm
  refine ⟨hnone, ?_⟩
  have hperm := @collect_refused_perm settings filename (sourceLines source) { symbols := seed } 1
  rw [show collect settings filename (refusedAt settings filename) { symbols := seed } 1
    (sourceLines source) = [] from hnone, List.nil_perm, List.append_eq_nil_iff] at hperm
  rw [hstatements, List.filter_eq_self]
  intro s hs
  rw [List.filterMap_eq_nil_iff.mp hperm.2 s hs]
  rfl

theorem flatMap_eq_flatMap_iff {α β : Type} {f g : α → List β} {l : List α}
    (h : ∀ a ∈ l, (f a).length = (g a).length) :
    l.flatMap f = l.flatMap g ↔ ∀ a ∈ l, f a = g a := by
  induction l with
  | nil => simp
  | cons a l ih =>
    obtain ⟨ha, hl⟩ := List.forall_mem_cons.mp h
    rw [List.flatMap_cons, List.flatMap_cons, List.forall_mem_cons, ← ih hl]
    exact ⟨fun heq => List.append_inj heq ha, fun heq => by rw [heq.1, heq.2]⟩

theorem unit_unroll_iff_of_lenient {settings : Settings}
    (hlenient : settings.options.strict = false) (u : Unrolling settings.constants)
    {filename looped written : String} {seed : Symbols} {output output' : Output}
    (hlooped : sourceLines looped = u.looped) (hwritten : sourceLines written = u.written)
    (h : unit settings filename looped seed = .ok output)
    (hskip : output.diagnostics.filter Diagnostic.isSkip = [])
    (h' : unit settings filename written seed = .ok output')
    (hskip' : output'.diagnostics.filter Diagnostic.isSkip = []) :
    output.statements.map Statement.tokens = output'.statements.map Statement.tokens ↔
      ∀ v ∈ u.values,
        scopeMarks (u.tokens.map (Reference.bind u.name v)) = scopeMarks u.tokens := by
  obtain ⟨hnone, hout⟩ := unit_of_no_skip hlenient h hskip
  obtain ⟨hnone', hout'⟩ := unit_of_no_skip hlenient h' hskip'
  obtain ⟨p, hp, -⟩ := unitLines_of_unit h
  obtain ⟨p', hp', -⟩ := unitLines_of_unit h'
  rw [refusals, hlooped] at hnone
  rw [refusals, hwritten] at hnone'
  rw [hlooped] at hp
  rw [hwritten] at hp'
  obtain ⟨hbody, stack, hscopes, htokens⟩ := u.run_looped rfl hp hnone
  obtain ⟨hcopies, stack', hscopes', htokens'⟩ := u.run_written hbody rfl hp' hnone'
  -- each copy has as many lines as the body, so the two outputs are compared value by value
  have hcommute := fun v hv =>
    stated_bind_iff hscopes hscopes' u.scope_plain hbody (hcopies v hv)
  rw [hout, hout', released, released, hlooped, hwritten, htokens, htokens',
    flatMap_eq_flatMap_iff fun v hv => by rw [List.length_map, (hcommute v hv).2]]
  exact forall₂_congr fun v hv => (hcommute v hv).1

/-- **A loop written out by hand.**  If a loop around one line inside a scope and the scope with the
line written out for each value are both compiled and nothing is skipped, they give the same lines
exactly if the scope is put in front of the same operands of the line and of each of its copies. -/
theorem unit_unroll_iff {settings : Settings} (u : Unrolling settings.constants)
    {filename looped written : String} {seed : Symbols} {output output' : Output}
    (hlooped : sourceLines looped = u.looped) (hwritten : sourceLines written = u.written)
    (h : unit settings filename looped seed = .ok output)
    (hskip : output.diagnostics.filter Diagnostic.isSkip = [])
    (h' : unit settings filename written seed = .ok output')
    (hskip' : output'.diagnostics.filter Diagnostic.isSkip = []) :
    output.statements.map Statement.tokens = output'.statements.map Statement.tokens ↔
      ∀ v ∈ u.values, scopeMarks (u.tokens.map (Reference.bind u.name v)) = scopeMarks u.tokens :=
  @unit_unroll_iff_of_lenient (settings.withStrict false) rfl u _ _ _ _ _ _ hlooped hwritten
    (unit_withStrict_false h) hskip (unit_withStrict_false h') hskip'

/-- A loop over the cells of a memory. -/
def Unrolling.cells : Unrolling .empty where
  scope := "io"
  name := "i"
  values := ["0", "1"]
  opening := "namespace io \x7b"
  looping := "&for i of 0 1 \x7b"
  body := "read v$i cell1 $i"
  closing := "\x7d"
  text := "read v$i cell1 $i"
  first := "read"
  rest := ["v$i", "cell1", "$i"]
  scope_plain := by decide
  values_quiet := by simp [Line.Quiet]
  noKeyword := by decide
  reads_opening := ⟨"namespace io \x7b", rfl, rfl, rfl, rfl⟩
  reads_looping := ⟨"&for i of 0 1 \x7b", rfl, rfl, rfl, rfl⟩
  reads_body := ⟨rfl, rfl, rfl, rfl⟩
  reads_closing := ⟨"\x7d", rfl, rfl, rfl, rfl⟩
  reads_copy := by
    intro v hv
    rcases List.mem_pair.mp hv with rfl | rfl
    · exact ⟨["read", "v0", "cell1", "0"], rfl, rfl, rfl, rfl⟩
    · exact ⟨["read", "v1", "cell1", "1"], rfl, rfl, rfl, rfl⟩

/-- The scope is put in front of `v$i` as of `v0`, and never in front of `$i` or a number. -/
theorem unit_unroll_iff_cells :
    ∃ output output',
      unit {} "main.mlogx"
          "namespace io \x7b\n&for i of 0 1 \x7b\nread v$i cell1 $i\n\x7d\n\x7d" {} = .ok output ∧
        unit {} "main.mlogx"
          "namespace io \x7b\nread v0 cell1 0\nread v1 cell1 1\n\x7d" {} = .ok output' ∧
        output.statements.map Statement.tokens = output'.statements.map Statement.tokens := by
  have hskips : (unit {} "main.mlogx"
        "namespace io \x7b\n&for i of 0 1 \x7b\nread v$i cell1 $i\n\x7d\n\x7d" {}).toOption.map
          (·.diagnostics.filter Diagnostic.isSkip) = some [] ∧
      (unit {} "main.mlogx" "namespace io \x7b\nread v0 cell1 0\nread v1 cell1 1\n\x7d"
        {}).toOption.map (·.diagnostics.filter Diagnostic.isSkip) = some [] := by
    decide
  have hmarks : ∀ v ∈ Unrolling.cells.values,
      scopeMarks (Unrolling.cells.tokens.map (Reference.bind Unrolling.cells.name v)) =
        scopeMarks Unrolling.cells.tokens := by
    decide
  cases h : unit {} "main.mlogx"
      "namespace io \x7b\n&for i of 0 1 \x7b\nread v$i cell1 $i\n\x7d\n\x7d" {} with
  | error e =>
    rw [h] at hskips
    cases hskips.1
  | ok output =>
    cases h' : unit {} "main.mlogx"
        "namespace io \x7b\nread v0 cell1 0\nread v1 cell1 1\n\x7d" {} with
    | error e =>
      rw [h'] at hskips
      cases hskips.2
    | ok output' =>
      rw [h, h'] at hskips
      refine ⟨output, output', rfl, rfl, ?_⟩
      exact (@unit_unroll_iff {} Unrolling.cells _ _ _ _ _ _ rfl rfl h (Option.some.inj hskips.1) h'
        (Option.some.inj hskips.2)).mpr hmarks

/-- The operand `$i` has no scope in front, and written out the variable `x` has. -/
theorem unit_unroll_reference :
    (unit {} "main.mlogx" "namespace n \x7b\n&for i of x \x7b\nprint $i\n\x7d\n\x7d"
        {}).toOption.map (fun output => (output.statements.map Statement.tokens,
          output.diagnostics.filter Diagnostic.isSkip)) = some ([["print", "x"]], []) ∧
      (unit {} "main.mlogx" "namespace n \x7b\nprint x\n\x7d" {}).toOption.map (fun output =>
        (output.statements.map Statement.tokens,
          output.diagnostics.filter Diagnostic.isSkip)) = some ([["print", "_n_x"]], []) := by
  decide

end Mlog.Compile
