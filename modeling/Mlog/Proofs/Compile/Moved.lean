import Mathlib.Data.List.Forall2
import Mlog.Proofs.Compile.Disabled

/-!
# Code further down

Compiling code some lines further down, or written with other blanks, gives the same statements and
warnings but for their places.  Statements and blocks that are equal up to this are `Moved`, and
each level of the compiler takes moved blocks to moved results.

Nothing else that a unit remembers is looked at by its lines, directives apart: two runs over the
same lines from moved blocks do the same, whatever each of them has put out before
(`unitLines_moved`).
-/
set_option autoImplicit false

namespace Mlog

/-! ## Places further down -/

/-- The place some lines further down. -/
def Location.shift (n : Nat) (l : Location) : Location := ⟨l.filename, l.line + n⟩

/-- The same finding some lines further down. -/
def Diagnostic.shift (n : Nat) (d : Diagnostic) : Diagnostic :=
  ⟨d.finding, d.location.map (Location.shift n)⟩

theorem Diagnostic.shift_zero : Diagnostic.shift 0 = id := by
  funext d
  obtain ⟨finding, location⟩ := d
  cases location <;> rfl

/-- The same statement some lines further down. -/
def Statement.shift (n : Nat) (s : Statement) : Statement :=
  { s with provenance := { s.provenance with line := s.provenance.line + n } }

/-- The same line some lines further down.  Unless it is `kept` as it was written, it may be written
in another way. -/
structure Provenance.Moved (n : Nat) (kept : Prop) (p q : Provenance) : Prop where
  filename : q.filename = p.filename
  line : q.line = p.line + n
  source : kept → q.source = p.source
  cleaned : q.cleaned = p.cleaned
  modified : q.modified = p.modified

/-- The same statement, from the same line some lines further down. -/
structure Statement.Moved (n : Nat) (kept : Prop) (s t : Statement) : Prop where
  tokens : t.tokens = s.tokens
  provenance : s.provenance.Moved n kept t.provenance

/-- The same block, with the same statements in it but for their places. -/
inductive Block.Moved (n : Nat) (kept : Prop) : Block → Block → Prop where
  | scope (name : String) (l l' : Location) : Moved n kept (.scope name l) (.scope name l')
  | loop (name : String) (elements : List String) {buffer buffer' : List Statement}
      (l l' : Location) (h : List.Forall₂ (Statement.Moved n kept) buffer buffer') :
      Moved n kept (.loop name elements buffer l) (.loop name elements buffer' l')
  | conditional (enabled : Bool) (l l' : Location) :
      Moved n kept (.conditional enabled l) (.conditional enabled l')

section

variable {n : Nat} {kept : Prop}

theorem Provenance.Moved.location {p q : Provenance} (h : p.Moved n kept q) :
    q.location = p.location.shift n := by
  rw [Provenance.location, h.filename, h.line]
  rfl

namespace Statement.Moved

variable {s t : Statement}

theorem refl (kept : Prop) (s : Statement) : s.Moved 0 kept s :=
  ⟨rfl, rfl, rfl, fun _ => rfl, rfl, rfl⟩

theorem bind (name value : String) (h : s.Moved n kept t) :
    (s.bind name value).Moved n kept (t.bind name value) := by
  refine ⟨?_, h.provenance.filename, h.provenance.line, fun hkept => ?_, ?_, ?_⟩
  · simp only [Statement.bind, h.tokens]
  · simp only [Statement.bind, h.provenance.source hkept]
  · simp only [Statement.bind, h.provenance.cleaned]
  · simp only [Statement.bind, h.provenance.modified]

theorem label? (h : s.Moved n kept t) : t.label? = s.label? := by
  rw [Statement.label?, h.tokens, Statement.label?]

theorem eq_shift (h : s.Moved n True t) : t = s.shift n := by
  obtain ⟨tokens, p⟩ := s
  obtain ⟨tokens', p'⟩ := t
  obtain ⟨rfl, hfilename, hline, hsource, hcleaned, hmodified⟩ := h
  simp only at hfilename hline hsource hcleaned hmodified
  rw [Statement.shift, Statement.mk.injEq, Provenance.mk.injEq]
  exact ⟨rfl, hfilename, hline, hsource trivial, hcleaned, hmodified⟩

end Statement.Moved

/-! ## Blocks -/

variable {stack stack' : BlockStack} {statements statements' : List Statement}

theorem Block.Moved.refl (kept : Prop) (b : Block) : b.Moved 0 kept b := by
  cases b with
  | scope name l => exact .scope name l l
  | loop name elements buffer l =>
    exact .loop name elements l l (List.forall₂_same.mpr fun s _ => Statement.Moved.refl kept s)
  | conditional enabled l => exact .conditional enabled l l

theorem Block.Moved.pass {b b' : Block} (h : b.Moved n kept b')
    (hs : List.Forall₂ (Statement.Moved n kept) statements statements') :
    (b.pass statements).1.Moved n kept (b'.pass statements').1 ∧
      List.Forall₂ (Statement.Moved n kept) (b.pass statements).2 (b'.pass statements').2 := by
  cases h with
  | scope name l l' => exact ⟨.scope name l l', hs⟩
  | loop name elements l l' h => exact ⟨.loop name elements l l' (List.rel_append h hs), .nil⟩
  | conditional enabled l l' =>
    cases enabled with
    | true => exact ⟨.conditional true l l', hs⟩
    | false => exact ⟨.conditional false l l', .nil⟩

theorem Block.Moved.release {b b' : Block} (h : b.Moved n kept b') :
    List.Forall₂ (Statement.Moved n kept) b.release b'.release := by
  cases h with
  | scope | conditional => exact .nil
  | loop name elements l l' h =>
    refine List.rel_flatMap (List.forall₂_same.mpr fun value _ => rfl) ?_
    rintro value _ rfl
    exact List.rel_map (fun s t hst => hst.bind name value) h

namespace BlockStack

theorem pass_moved (h : List.Forall₂ (Block.Moved n kept) stack stack')
    (hs : List.Forall₂ (Statement.Moved n kept) statements statements') :
    List.Forall₂ (Block.Moved n kept) (stack.pass statements).1 (stack'.pass statements').1 ∧
      List.Forall₂ (Statement.Moved n kept) (stack.pass statements).2
        (stack'.pass statements').2 := by
  induction h generalizing statements statements' with
  | nil => exact ⟨.nil, hs⟩
  | cons hb houter ih =>
    obtain ⟨hb', hthrough⟩ := hb.pass hs
    obtain ⟨houter', hout⟩ := ih hthrough
    exact ⟨.cons hb' houter', hout⟩

theorem scopes_moved (h : List.Forall₂ (Block.Moved n kept) stack stack') :
    stack'.scopes = stack.scopes := by
  have hnames : stack'.filterMap Block.scopeName? = stack.filterMap Block.scopeName? := by
    induction h with
    | nil => rfl
    | @cons b b' outer outer' hb houter ih =>
      have hname : b'.scopeName? = b.scopeName? := by cases hb <;> rfl
      rw [List.filterMap_cons, List.filterMap_cons, hname, ih]
  rw [scopes, hnames, scopes]

theorem loopVariables_moved (h : List.Forall₂ (Block.Moved n kept) stack stack') :
    stack'.loopVariables = stack.loopVariables := by
  have hnames : stack'.filterMap Block.loopVariable? = stack.filterMap Block.loopVariable? := by
    induction h with
    | nil => rfl
    | @cons b b' outer outer' hb houter ih =>
      have hname : b'.loopVariable? = b.loopVariable? := by cases hb <;> rfl
      rw [List.filterMap_cons, List.filterMap_cons, hname, ih]
  rw [loopVariables, hnames, loopVariables]

theorem qualify_moved (h : List.Forall₂ (Block.Moved n kept) stack stack') (name : String) :
    stack'.qualify name = stack.qualify name := by
  rw [qualify, scopes_moved h, qualify]

end BlockStack

/-- The header of a block opens the same block further down, with the same warnings. -/
theorem Block.ofHeader_moved {kind : BlockKind} {header : List String} {location : Location}
    {block : Block} {warnings : List Diagnostic} (n : Nat) (kept : Prop)
    (h : Block.ofHeader kind header location = .ok (block, warnings)) :
    ∃ block', Block.ofHeader kind header (location.shift n) =
      .ok (block', warnings.map (Diagnostic.shift n)) ∧ block.Moved n kept block' := by
  cases kind with
  | scope =>
    simp only [ofHeader] at h ⊢
    cases hname : header[1]? with
    | none =>
      rw [hname] at h
      cases h
    | some name =>
      rw [hname] at h
      obtain ⟨rfl, rfl⟩ := Prod.mk.inj (Except.ok.inj h)
      exact ⟨_, rfl, .scope name _ _⟩
  | loop =>
    simp only [ofHeader] at h ⊢
    cases hp : loopParts header with
    | error fault =>
      rw [hp] at h
      cases h
    | ok parts =>
      rw [hp] at h
      obtain ⟨rfl, rfl⟩ := Prod.mk.inj (Except.ok.inj h)
      exact ⟨_, rfl, .loop parts.1 parts.2 _ _ .nil⟩
  | conditional =>
    simp only [ofHeader] at h ⊢
    cases hc : condition? (header[1]?.getD "") with
    | none =>
      rw [hc] at h
      obtain ⟨rfl, rfl⟩ := Prod.mk.inj (Except.ok.inj h)
      exact ⟨_, rfl, .conditional true _ _⟩
    | some enabled =>
      rw [hc] at h
      obtain ⟨rfl, rfl⟩ := Prod.mk.inj (Except.ok.inj h)
      exact ⟨_, rfl, .conditional enabled _ _⟩
  | close => cases h

end

namespace Compile

/-! ## Statements of a line -/

/-- Where the first step succeeds the second does, and gives the same but for the places. -/
def Step.Moved (n : Nat) (kept : Prop) (a b : Step) : Prop :=
  ∀ out, a.result = .ok out → ∃ out', b.result = .ok out' ∧
    List.Forall₂ (Statement.Moved n kept) out out' ∧
      List.Forall₂ (Block.Moved n kept) a.stack b.stack ∧
        b.diagnostics = a.diagnostics.map (Diagnostic.shift n)

section Steps

variable {n : Nat} {kept : Prop} {stack stack' : BlockStack} {tokens : List String}

theorem Step.moved_of_error {diagnostics : List Diagnostic} {e : CompileError} {b : Step} :
    Step.Moved n kept ⟨diagnostics, stack, .error e⟩ b := fun _ h => nomatch h

theorem Step.moved_of_nothing {diagnostics : List Diagnostic}
    (h : List.Forall₂ (Block.Moved n kept) stack stack') :
    Step.Moved n kept ⟨diagnostics, stack, .ok []⟩
      ⟨diagnostics.map (Diagnostic.shift n), stack', .ok []⟩ := by
  intro out hout
  obtain rfl := Except.ok.inj hout
  exact ⟨[], rfl, .nil, h, rfl⟩

theorem moved_emit {diagnostics : List Diagnostic} {statements statements' : List Statement}
    (h : List.Forall₂ (Block.Moved n kept) stack stack')
    (hs : List.Forall₂ (Statement.Moved n kept) statements statements') :
    (emit diagnostics stack statements).Moved n kept
      (emit (diagnostics.map (Diagnostic.shift n)) stack' statements') := by
  intro out hout
  obtain rfl := Except.ok.inj hout
  obtain ⟨hstack, hthrough⟩ := BlockStack.pass_moved h hs
  exact ⟨_, rfl, hthrough, hstack, rfl⟩

theorem scopedLine_moved (h : List.Forall₂ (Block.Moved n kept) stack stack')
    (line : List String) : scopedLine stack' line = scopedLine stack line := by
  have hqualify : stack'.qualify = stack.qualify := funext (BlockStack.qualify_moved h)
  unfold scopedLine
  simp only [qualifyLine, qualifyOperand, hqualify]

/-- An instruction is lowered wherever it stands. -/
theorem lower_moved {o : Overload} {p p' : Provenance} {statements : List Statement}
    (h : List.Forall₂ (Block.Moved n kept) stack stack') (hp : p.Moved n kept p')
    (hl : lower stack o tokens p = .ok statements) :
    ∃ statements', lower stack' o tokens p' = .ok statements' ∧
      List.Forall₂ (Statement.Moved n kept) statements statements' := by
  obtain ⟨statements', hl'⟩ : ∃ statements', lower stack' o tokens p' = .ok statements' := by
    refine Except.mapM_isOk_iff.mpr fun line hline => ?_
    obtain ⟨base, hbase⟩ := resolve_of_lower hl line hline
    exact ⟨_, Except.bind_eq_ok_iff.mpr ⟨base, baseOverload_eq_ok_iff.mpr hbase, rfl⟩⟩
  refine ⟨statements', hl', ?_⟩
  rw [lower_eq hl, lower_eq hl']
  refine List.rel_map ?_ (List.forall₂_same.mpr fun line _ => rfl)
  rintro line _ rfl
  exact ⟨scopedLine_moved h line, hp⟩

theorem moved_instruction (options : Options) {p p' : Provenance}
    (h : List.Forall₂ (Block.Moved n kept) stack stack') (hp : p.Moved n kept p') :
    (instruction options stack tokens p).Moved n kept (instruction options stack' tokens p') := by
  unfold instruction
  cases Instruction.resolve tokens with
  | error r =>
    simp only [reject]
    cases options.strict with
    | true => exact Step.moved_of_error
    | false =>
      simp only [Bool.false_eq_true, if_false, hp.location]
      exact Step.moved_of_nothing h
  | ok o =>
    simp only
    cases hl : lower stack o tokens p with
    | error e => exact Step.moved_of_error
    | ok statements =>
      obtain ⟨statements', hl', hs⟩ := lower_moved h hp hl
      simp only [hl', hp.location]
      convert moved_emit h hs using 2
      split <;> rfl

theorem moved_closeBlock {location location' : Location} {rest : List String}
    (h : List.Forall₂ (Block.Moved n kept) stack stack') :
    (closeBlock stack rest location).Moved n kept (closeBlock stack' rest location') := by
  unfold closeBlock
  split
  · exact Step.moved_of_error
  · cases h with
    | nil => exact Step.moved_of_error
    | cons hb houter =>
      intro out hout
      obtain rfl := Except.ok.inj hout
      obtain ⟨hstack, hthrough⟩ := BlockStack.pass_moved houter hb.release
      exact ⟨_, rfl, hthrough, hstack, rfl⟩

theorem moved_openBlock {location : Location} {header : List String}
    (h : List.Forall₂ (Block.Moved n kept) stack stack') :
    (openBlock stack header location).Moved n kept
      (openBlock stack' header (location.shift n)) := by
  unfold openBlock
  cases Instruction.resolve header with
  | error r => exact Step.moved_of_error
  | ok o =>
    simp only
    cases o.block with
    | none => exact Step.moved_of_error
    | some kind =>
      simp only [BlockStack.enter]
      cases hb : Block.ofHeader kind header location with
      | error fault => exact Step.moved_of_error
      | ok opened =>
        obtain ⟨block', hb', hmoved⟩ := Block.ofHeader_moved n kept hb
        simp only [hb']
        exact Step.moved_of_nothing (.cons hmoved h)

theorem moved_blockLine {location : Location}
    (h : List.Forall₂ (Block.Moved n kept) stack stack') :
    (blockLine stack tokens location).Moved n kept
      (blockLine stack' tokens (location.shift n)) := by
  unfold blockLine
  split
  · exact moved_closeBlock h
  · split
    · exact moved_openBlock h
    · exact Step.moved_of_error

theorem moved_statement (options : Options) {p p' : Provenance}
    (h : List.Forall₂ (Block.Moved n kept) stack stack') (hp : p.Moved n kept p') :
    (statement options stack tokens p).Moved n kept (statement options stack' tokens p') := by
  unfold statement
  cases tokens with
  | nil => exact Step.moved_of_nothing h
  | cons first rest =>
    simp only
    split
    · rw [hp.location]
      exact moved_blockLine h
    · split
      · rw [BlockStack.qualify_moved h]
        exact moved_emit h (.cons ⟨rfl, hp⟩ .nil)
      · exact moved_instruction options h hp

variable {settings : Settings} {location : Location} {source source' : String}

theorem moved_part {text : String} (h : List.Forall₂ (Block.Moved n kept) stack stack')
    (hsource : kept → source' = source) :
    (part settings location source stack text).Moved n kept
      (part settings (location.shift n) source' stack' text) := by
  have hp : ∀ modified, Provenance.Moved n kept
      ⟨location.filename, location.line, source, text, modified⟩
      ⟨location.filename, location.line + n, source', text, modified⟩ :=
    fun modified => ⟨rfl, rfl, hsource, rfl, rfl⟩
  unfold part
  simp only [BlockStack.loopVariables_moved h]
  cases Line.tokens (Reference.substitute (constantText settings.constants) stack.loopVariables
    text).text with
  | error e => exact Step.moved_of_error
  | ok tokens =>
    intro out hout
    obtain ⟨out', hresult, hs, hstack, hd⟩ :=
      moved_statement settings.options h (hp _) out hout
    refine ⟨out', hresult, hs, hstack, ?_⟩
    show _ ++ _ = List.map _ (_ ++ _)
    rw [List.map_append, List.map_map, ← hd]
    rfl

theorem moved_parts {texts : List String} (h : List.Forall₂ (Block.Moved n kept) stack stack')
    (hsource : kept → source' = source) :
    (parts settings location source stack texts).Moved n kept
      (parts settings (location.shift n) source' stack' texts) := by
  induction texts generalizing stack stack' with
  | nil => exact Step.moved_of_nothing h
  | cons text texts ih =>
    intro out hout
    obtain ⟨first, others, hfirst, hothers, rfl⟩ := (parts_cons_eq_ok_iff ..).mp hout
    obtain ⟨first', hfirst', hs, hstack, hd⟩ := moved_part h hsource first hfirst
    obtain ⟨others', hothers', hs', hstack', hd'⟩ := ih hstack others hothers
    refine ⟨first' ++ others', ?_, List.rel_append hs hs', ?_, ?_⟩
    · exact (parts_cons_eq_ok_iff ..).mpr ⟨first', others', hfirst', hothers', rfl⟩
    · rw [parts_cons_stack settings location source hfirst, parts_cons_stack _ _ _ hfirst']
      exact hstack'
    · simp only [parts, hfirst, hfirst', hd, hd', List.map_append]

theorem moved_line (h : List.Forall₂ (Block.Moved n kept) stack stack')
    (hclean : Line.clean source' = Line.clean source) (hsource : kept → source' = source) :
    (line settings location stack source).Moved n kept
      (line settings (location.shift n) stack' source') := by
  unfold line
  rw [hclean]
  split
  · exact Step.moved_of_error
  · exact moved_parts h hsource

end Steps

/-! ## Lines of a unit -/

section Unit

variable {n : Nat} {kept : Prop} {settings : Settings} {filename : String}

/-- A statement is kept or dropped wherever it stands. -/
theorem judge_moved {options : Options} {s t : Statement} (h : s.Moved n kept t) {v : Verdict}
    (hv : judge options s = .ok v) :
    (v = .kept s ∧ judge options t = .ok (.kept t)) ∨
      ∃ d, v = .dropped d ∧ judge options t = .ok (.dropped (d.shift n)) := by
  unfold judge at hv ⊢
  rw [h.label?, h.tokens]
  split at hv
  · next hlabel =>
    rw [if_pos hlabel]
    exact Or.inl ⟨(Except.ok.inj hv).symm, rfl⟩
  · next hlabel =>
    rw [if_neg hlabel]
    cases hr : Instruction.resolve s.tokens with
    | ok o =>
      rw [hr] at hv
      exact Or.inl ⟨(Except.ok.inj hv).symm, rfl⟩
    | error r =>
      simp only [hr, reject] at hv ⊢
      split at hv
      · cases hv
      · next hstrict =>
        rw [if_neg hstrict, h.provenance.location]
        exact Or.inr ⟨_, (Except.ok.inj hv).symm, rfl⟩

theorem mapM_judge_moved {options : Options} {statements statements' : List Statement}
    {verdicts : List Verdict} (h : List.Forall₂ (Statement.Moved n kept) statements statements')
    (hv : statements.mapM (judge options) = .ok verdicts) :
    ∃ verdicts', statements'.mapM (judge options) = .ok verdicts' ∧
      List.Forall₂ (Statement.Moved n kept) (verdicts.filterMap Verdict.statement?)
        (verdicts'.filterMap Verdict.statement?) ∧
      verdicts'.filterMap Verdict.warning? =
        (verdicts.filterMap Verdict.warning?).map (Diagnostic.shift n) := by
  induction h generalizing verdicts with
  | nil =>
    obtain rfl := Except.ok.inj hv
    exact ⟨[], rfl, .nil, rfl⟩
  | @cons s t statements statements' hst hrest ih =>
    rw [List.mapM_cons, Except.bind_eq_ok_iff] at hv
    obtain ⟨v, hv, hall⟩ := hv
    obtain ⟨vs, hvs, hall⟩ := Except.bind_eq_ok_iff.mp hall
    obtain rfl := Except.ok.inj hall
    obtain ⟨vs', hvs', hkept, hdropped⟩ := ih hvs
    rcases judge_moved hst hv with ⟨rfl, hv'⟩ | ⟨d, rfl, hv'⟩
    · refine ⟨.kept t :: vs', ?_, .cons hst hkept, hdropped⟩
      rw [List.mapM_cons, hv', hvs']
      rfl
    · refine ⟨.dropped (d.shift n) :: vs', ?_, hkept, congrArg (d.shift n :: ·) hdropped⟩
      rw [List.mapM_cons, hv', hvs']
      rfl

/-- Going on from `r` to `r'` adds the same as going on from `p` to `q`, but for the places. -/
structure Progress.Follows (n : Nat) (kept : Prop) (p q r r' : Progress) : Prop where
  stack : List.Forall₂ (Block.Moved n kept) q.stack r'.stack
  header : q.header = p.header ∧ r'.header = r.header
  statements : ∃ added added', q.statements = p.statements ++ added ∧
    r'.statements = r.statements ++ added' ∧
      List.Forall₂ (Statement.Moved n kept) added added'
  diagnostics : ∃ raised, q.diagnostics = p.diagnostics ++ raised ∧
    r'.diagnostics = r.diagnostics ++ raised.map (Diagnostic.shift n)

theorem Progress.Follows.trans {p q q' r r' r'' : Progress} (h : Follows n kept p q r r')
    (h' : Follows n kept q q' r' r'') : Follows n kept p q' r r'' := by
  obtain ⟨-, hheader, ⟨added, moved, hq, hr, hs⟩, raised, hd, hd'⟩ := h
  obtain ⟨hstack, hheader₂, ⟨added₂, moved₂, hq₂, hr₂, hs₂⟩, raised₂, hd₂, hd₂'⟩ := h'
  refine ⟨hstack, ⟨hheader₂.1.trans hheader.1, hheader₂.2.trans hheader.2⟩,
    ⟨added ++ added₂, moved ++ moved₂, ?_, ?_, List.rel_append hs hs₂⟩, raised ++ raised₂, ?_, ?_⟩
  · rw [hq₂, hq, List.append_assoc]
  · rw [hr₂, hr, List.append_assoc]
  · rw [hd₂, hd, List.append_assoc]
  · rw [hd₂', hd', List.map_append, List.append_assoc]

variable {p q r : Progress} {number : Nat}

theorem unitLine_moved {source source' : String} (hd : Directive.isDirective source = false)
    (hd' : Directive.isDirective source' = false)
    (hclean : Line.clean source' = Line.clean source) (hsource : kept → source' = source)
    (h : List.Forall₂ (Block.Moved n kept) p.stack r.stack)
    (hq : unitLine settings filename p number source = .ok q) :
    ∃ r', unitLine settings filename r (number + n) source' = .ok r' ∧
      Progress.Follows n kept p q r r' := by
  rcases unitLine_cases hq with ⟨hdirective, -⟩ | ⟨-, statements, verdicts, hr, hv, rfl⟩
  · rw [hd] at hdirective
    cases hdirective
  · have hline : Step.Moved n kept (line settings ⟨filename, number⟩ p.stack source)
        (line settings ⟨filename, number + n⟩ r.stack source') :=
      moved_line h hclean hsource
    obtain ⟨statements', hr', hs, hstack, hdiagnostics⟩ := hline statements hr
    obtain ⟨verdicts', hv', hkept, hdropped⟩ := mapM_judge_moved hs hv
    refine ⟨_, unitLine_of_verdicts hd' hr' hv', ?_, ?_, ?_, ?_⟩
    · simpa only [Progress.record] using hstack
    · simp only [Progress.record, and_self]
    · simp only [Progress.record]
      exact ⟨_, _, rfl, rfl, hkept⟩
    · simp only [Progress.record]
      refine ⟨_, List.append_assoc .., ?_⟩
      rw [List.map_append, hdiagnostics, hdropped, List.append_assoc]

/-- **Lines of code do the same further down**, after whatever else was compiled. -/
theorem unitLines_moved {lines : List String}
    (hcode : ∀ line ∈ lines, Directive.isDirective line = false)
    (h : List.Forall₂ (Block.Moved n kept) p.stack r.stack)
    (hq : unitLines settings filename p number lines = .ok q) :
    ∃ r', unitLines settings filename r (number + n) lines = .ok r' ∧
      Progress.Follows n kept p q r r' := by
  induction lines generalizing p r number with
  | nil =>
    obtain rfl := Except.ok.inj hq
    refine ⟨r, rfl, h, ⟨rfl, rfl⟩, ⟨[], [], ?_, ?_, .nil⟩, [], ?_, ?_⟩ <;> simp
  | cons line lines ih =>
    obtain ⟨hline, hlines⟩ := List.forall_mem_cons.mp hcode
    obtain ⟨mid, hmid, hq⟩ := Except.bind_eq_ok_iff.mp hq
    obtain ⟨mid', hmid', hfollows⟩ := unitLine_moved hline hline rfl (fun _ => rfl) h hmid
    obtain ⟨r', hr', hfollows'⟩ := ih hlines hfollows.stack hq
    refine ⟨r', Except.bind_eq_ok_iff.mpr ⟨mid', hmid', ?_⟩, hfollows.trans hfollows'⟩
    rw [Nat.add_right_comm]
    exact hr'

end Unit

end Compile

end Mlog
