import Mlog.Proofs.Block.Copies
import Mlog.Proofs.Compile.Lenient
import Mlog.Proofs.Instruction.Expansion

/-!
# Nothing is lost

What an entry becomes is copied for each iteration of the loops around it, and every copy ends up in
the output or is reported as skipped.  The copies of different entries come out interleaved, since a
loop repeats its whole body, so the output is what the entries give up to its order.

The lines of one instruction are a group, and a run releases whole groups: `unit_groups` says that
what comes out of the blocks of a unit is the copies of its entries, one group after the other.  It
follows from what the open blocks owe at each line (`Settles`).
-/
set_option autoImplicit false

namespace Mlog.Compile

/-! ## Entries and their copies -/

namespace Entry

/-- The copies of what the entry becomes, a group for each iteration of the loops around it. -/
def copies (e : Entry) : List Group := e.stack.spread [e.statements]

/-- The copies that go to the output. -/
def kept (e : Entry) : List Statement := e.copies.flatten.filter (·.refusal?.isNone)

/-- The refusals that the entry is the reason for: its own, or those of its copies. -/
def skips (e : Entry) : List Refusal :=
  e.refusal?.toList ++ e.copies.flatten.filterMap Statement.refusal?

def reading (e : Entry) : Provenance × List String := (e.provenance, e.tokens)

end Entry

/-- The statement of a line that is a label or an instruction, read without any blocks. -/
def reading? (settings : Settings) (location : Location) (source text : String) :
    Option (Provenance × List String) :=
  (entryOf? settings location source [] text).map Entry.reading

def lineReadings (settings : Settings) (location : Location) (source : String) :
    List (Provenance × List String) :=
  match Line.statements (Line.clean source) with
  | .error _ => []
  | .ok texts => texts.filterMap (reading? settings location source)

/-- All statements of a source that are labels or instructions. -/
def readings (settings : Settings) (filename source : String) :
    List (Provenance × List String) :=
  ((sourceLines source).zipIdx 1).flatMap fun (line, number) =>
    if Directive.isDirective line then [] else lineReadings settings ⟨filename, number⟩ line

theorem reading?_eq (settings : Settings) (location : Location) (source text : String)
    (stack : BlockStack) :
    (entryOf? settings location source stack text).map Entry.reading =
      reading? settings location source text := by
  unfold reading? entryOf?
  split
  · split <;> rfl
  · rfl

/-! ## Settling -/

/-- Blocks that owed `owed` took in `posted` and let `out` go, in whole groups; what else they owed
or took in is owed by the blocks that are open now. -/
def Settles (owed posted : List Group) (stack : BlockStack) (out : List Statement) : Prop :=
  ∃ groups owed', stack.Owes owed' ∧ out = groups.flatten ∧
    (groups ++ owed').Perm (owed ++ posted)

theorem Settles.andThen {owed posted posted' : List Group} {stack stack' : BlockStack}
    {out out' : List Statement} (h : Settles owed posted stack out)
    (h' : ∀ owed', stack.Owes owed' → Settles owed' posted' stack' out') :
    Settles owed (posted ++ posted') stack' (out ++ out') := by
  obtain ⟨groups, mid, hmid, rfl, hperm⟩ := h
  obtain ⟨groups', owed', howed', rfl, hperm'⟩ := h' mid hmid
  refine ⟨groups ++ groups', owed', howed', List.flatten_append.symm, ?_⟩
  calc (groups ++ groups' ++ owed').Perm (groups ++ (mid ++ posted')) := by
        rw [List.append_assoc]
        exact hperm'.append_left groups
    _ |>.Perm (owed ++ posted ++ posted') := by
        rw [← List.append_assoc]
        exact hperm.append_right posted'
    _ |>.Perm (owed ++ (posted ++ posted')) := by rw [List.append_assoc]

section Settle

variable {settings : Settings} {location : Location} {source : String} {stack : BlockStack}
  {owed : List Group}

theorem settles_nothing (h : stack.Owes owed) : Settles owed [] stack [] :=
  ⟨[], owed, h, rfl, by simp⟩

/-- A statement of a line settles what it becomes; a brace settles what was owed already. -/
theorem settles_part {text : String} {out : List Statement} (h : stack.Owes owed)
    (hr : (part settings location source stack text).result = .ok out) :
    Settles owed ((entryOf? settings location source stack text).toList.flatMap Entry.copies)
      (part settings location source stack text).stack out := by
  cases he : entryOf? settings location source stack text with
  | some e =>
    -- its statements are posted as one group to the blocks that were open when it was read
    rw [part_of_entry he] at hr ⊢
    have hpass := e.pass_of_compile settings.options hr
    obtain ⟨groups, owed', howed', hout, hperm⟩ := h.pass [e.statements]
    rw [List.flatten_singleton, ← entryOf?_stack he, hpass] at howed' hout
    refine ⟨groups, owed', howed', hout, ?_⟩
    simpa [Entry.copies, entryOf?_stack he] using hperm
  | none =>
    show Settles owed [] _ _
    have hpart := part_of_not_entry he
    rcases hpart with ⟨error, hp⟩ | hp | ⟨tokens, hp⟩
    · rw [show part settings location source stack text = _ from hp settings.options] at hr
      cases hr
    · rw [show part settings location source stack text = _ from hp settings.options] at hr ⊢
      rw [← Except.ok.inj hr]
      exact settles_nothing h
    · rw [show part settings location source stack text = _ from hp settings.options] at hr ⊢
      rcases blockLine_cases.2 out hr with ⟨b, hb, hstack, rfl⟩ | hclose
      · simp only [hstack]
        exact settles_nothing (h.enter hb)
      · obtain ⟨groups, owed', howed', hout, hperm⟩ := h.close hclose
        exact ⟨groups, owed', howed', hout, by simpa using hperm⟩

theorem settles_parts {texts : List String} {out : List Statement} (h : stack.Owes owed)
    (hr : (parts settings location source stack texts).result = .ok out) :
    Settles owed ((partsEntries settings location source stack texts).flatMap Entry.copies)
      (parts settings location source stack texts).stack out := by
  induction texts generalizing stack owed out with
  | nil =>
    rw [← Except.ok.inj hr]
    exact settles_nothing h
  | cons text texts ih =>
    obtain ⟨first, others, hfirst, hothers, rfl⟩ := (parts_cons_eq_ok_iff ..).mp hr
    rw [parts_cons_stack settings location source hfirst, partsEntries, hfirst,
      List.flatMap_append]
    exact (settles_part h hfirst).andThen fun owed' howed' => ih howed' hothers

theorem settles_line {out : List Statement} (h : stack.Owes owed)
    (hr : (line settings location stack source).result = .ok out) :
    Settles owed ((lineEntries settings location stack source).flatMap Entry.copies)
      (line settings location stack source).stack out := by
  unfold line lineEntries at *
  cases ht : Line.statements (Line.clean source) with
  | error e =>
    rw [ht] at hr
    cases hr
  | ok texts =>
    rw [ht] at hr
    exact settles_parts h hr

variable {filename : String}

theorem settles_unitLine {p q : Progress} {number : Nat} (h : p.stack.Owes owed)
    (hq : unitLine settings filename p number source = .ok q) :
    Settles owed ((entriesAt settings filename p number source).flatMap Entry.copies) q.stack
      (releasedAt settings filename p number source) := by
  unfold entriesAt releasedAt
  rcases unitLine_cases hq with ⟨hd, hstack, -, -⟩ | ⟨hd, statements, verdicts, hr, -, rfl⟩
  · rw [if_pos hd, if_pos hd, hstack]
    exact settles_nothing h
  · simp only [hd, Bool.false_eq_true, if_false, hr, Except.toOption, Option.getD_some,
      Progress.record]
    exact settles_line h hr

theorem settles_unitLines {lines : List String} {p q : Progress} {number : Nat}
    (h : p.stack.Owes owed) (hq : unitLines settings filename p number lines = .ok q) :
    Settles owed
      ((collect settings filename (entriesAt settings filename) p number lines).flatMap
        Entry.copies) q.stack
      (collect settings filename (releasedAt settings filename) p number lines) := by
  induction lines generalizing p number owed with
  | nil =>
    rw [← Except.ok.inj hq]
    exact settles_nothing h
  | cons source lines ih =>
    obtain ⟨mid, hmid, hq⟩ := Except.bind_eq_ok_iff.mp hq
    rw [collect, collect, hmid, List.flatMap_append]
    exact (settles_unitLine h hmid).andThen fun owed' howed' => ih howed' hq

end Settle

section Unit

variable {settings : Settings} {filename source : String} {seed : Symbols} {output : Output}

theorem unitLines_of_unit (h : unit settings filename source seed = .ok output) :
    ∃ p, unitLines settings filename { symbols := seed } 1 (sourceLines source) = .ok p ∧
      p.stack = [] := by
  obtain ⟨p, hp, h⟩ := Except.bind_eq_ok_iff.mp h
  obtain ⟨_, hfinish, -⟩ := Except.bind_eq_ok_iff.mp h
  refine ⟨p, hp, ?_⟩
  rw [Except.mapError_eq_ok_iff, BlockStack.finish] at hfinish
  split at hfinish
  · next hempty => exact List.isEmpty_iff.mp hempty
  · cases hfinish

/-- **A unit releases the copies of its entries**, each in one piece, and nothing else. -/
theorem unit_groups (h : unit settings filename source seed = .ok output) :
    ∃ groups : List Group, released settings filename source seed = groups.flatten ∧
      groups.Perm ((entries settings filename source seed).flatMap Entry.copies) := by
  obtain ⟨p, hp, hstack⟩ := unitLines_of_unit h
  obtain ⟨groups, owed, howed, hout, hperm⟩ :=
    settles_unitLines (p := { symbols := seed }) .nil hp
  -- a unit that succeeds has ended all its blocks, so nothing is owed any more
  rw [hstack] at howed
  obtain rfl := howed.eq_nil
  rw [List.append_nil, List.nil_append] at hperm
  exact ⟨groups, hout, hperm⟩

/-! ## Every entry is accounted for -/

/-- What a unit sees at its lines, if it sees the same at each line whatever came before. -/
theorem collect_map {α β : Type} {view : Progress → Nat → String → List α} {f : α → β}
    {g : String → Nat → List β}
    (hview : ∀ p q number source, unitLine settings filename p number source = .ok q →
      (view p number source).map f = g source number)
    {lines : List String} {p q : Progress} {number : Nat}
    (h : unitLines settings filename p number lines = .ok q) :
    (collect settings filename view p number lines).map f =
      (lines.zipIdx number).flatMap fun (line, number) => g line number := by
  induction lines generalizing p number with
  | nil => rfl
  | cons source lines ih =>
    obtain ⟨mid, hmid, h⟩ := Except.bind_eq_ok_iff.mp h
    rw [collect, hmid, List.map_append, hview _ _ _ _ hmid, ih h, List.zipIdx_cons,
      List.flatMap_cons]

theorem mem_collect {α : Type} {view : Progress → Nat → String → List α} {lines : List String}
    {p q : Progress} {number : Nat} (h : unitLines settings filename p number lines = .ok q)
    {x : α} (hx : x ∈ collect settings filename view p number lines) :
    ∃ p' q' number' source, unitLine settings filename p' number' source = .ok q' ∧
      x ∈ view p' number' source := by
  induction lines generalizing p number with
  | nil => cases hx
  | cons source lines ih =>
    obtain ⟨mid, hmid, h⟩ := Except.bind_eq_ok_iff.mp h
    rw [collect, hmid] at hx
    rcases List.mem_append.mp hx with hx | hx
    · exact ⟨p, mid, number, source, hmid, hx⟩
    · exact ih h hx

theorem entriesAt_cases {p q : Progress} {number : Nat} {line : String}
    (hq : unitLine settings filename p number line = .ok q) :
    (Directive.isDirective line = true ∧ entriesAt settings filename p number line = []) ∨
      Directive.isDirective line = false ∧ ∃ texts out,
        Line.statements (Line.clean line) = .ok texts ∧
          (parts settings ⟨filename, number⟩ line p.stack texts).result = .ok out ∧
            entriesAt settings filename p number line =
              partsEntries settings ⟨filename, number⟩ line p.stack texts := by
  rcases unitLine_cases hq with ⟨hd, -⟩ | ⟨hd, out, verdicts, hr, -⟩
  · exact Or.inl ⟨hd, if_pos hd⟩
  · refine Or.inr ⟨hd, ?_⟩
    unfold Compile.line at hr
    cases ht : Line.statements (Line.clean line) with
    | error e =>
      rw [ht] at hr
      cases hr
    | ok texts =>
      rw [ht] at hr
      refine ⟨texts, out, rfl, hr, ?_⟩
      simp only [entriesAt, hd, Bool.false_eq_true, if_false, lineEntries, ht]

theorem partsEntries_reading {location : Location} {stack : BlockStack} {texts : List String}
    {out : List Statement}
    (h : (parts settings location source stack texts).result = .ok out) :
    (partsEntries settings location source stack texts).map Entry.reading =
      texts.filterMap (reading? settings location source) := by
  induction texts generalizing stack out with
  | nil => rfl
  | cons text texts ih =>
    obtain ⟨first, others, hfirst, hothers, -⟩ := (parts_cons_eq_ok_iff ..).mp h
    rw [partsEntries, hfirst, List.map_append, ih hothers, ← Option.toList_map, reading?_eq]
    cases hr : reading? settings location source text with
    | none => rw [List.filterMap_cons_none hr, Option.toList_none, List.nil_append]
    | some r => rw [List.filterMap_cons_some hr, Option.toList_some, List.singleton_append]

/-- **The entries of a unit are the statements of its source**: which of them are labels or
instructions does not depend on the blocks around them. -/
theorem entries_reading (h : unit settings filename source seed = .ok output) :
    (entries settings filename source seed).map Entry.reading =
      readings settings filename source := by
  obtain ⟨p, hp, -⟩ := unitLines_of_unit h
  refine collect_map (g := fun line number =>
    if Directive.isDirective line then [] else lineReadings settings ⟨filename, number⟩ line)
    (fun p q number line hq => ?_) hp
  rcases entriesAt_cases hq with ⟨hd, he⟩ | ⟨hd, texts, out, ht, hr, he⟩
  · rw [if_pos hd, he, List.map_nil]
  · rw [he, partsEntries_reading hr]
    simp only [hd, Bool.false_eq_true, if_false, lineReadings, ht]

theorem part_of_mem_partsEntries {location : Location} {stack : BlockStack} {texts : List String}
    {out : List Statement} {e : Entry}
    (h : (parts settings location source stack texts).result = .ok out)
    (he : e ∈ partsEntries settings location source stack texts) :
    ∃ stack' text out', entryOf? settings location source stack' text = some e ∧
      (part settings location source stack' text).result = .ok out' := by
  induction texts generalizing stack out with
  | nil => cases he
  | cons text texts ih =>
    obtain ⟨first, others, hfirst, hothers, -⟩ := (parts_cons_eq_ok_iff ..).mp h
    rw [partsEntries, hfirst] at he
    rcases List.mem_append.mp he with he | he
    · exact ⟨stack, text, first, Option.mem_toList.mp he, hfirst⟩
    · exact ih hothers he

theorem compile_of_mem_entries (h : unit settings filename source seed = .ok output) {e : Entry}
    (he : e ∈ entries settings filename source seed) :
    ∃ out, (e.compile settings.options).result = .ok out := by
  obtain ⟨p, hp, -⟩ := unitLines_of_unit h
  obtain ⟨p', q', number, line, hq, he⟩ := mem_collect hp he
  rcases entriesAt_cases hq with ⟨-, hnone⟩ | ⟨-, texts, out, -, hr, hentries⟩
  · rw [hnone] at he
    cases he
  · rw [hentries] at he
    obtain ⟨stack', text, out, hentry, hout⟩ := part_of_mem_partsEntries hr he
    rw [part_of_entry hentry] at hout
    exact ⟨out, hout⟩

end Unit

namespace Entry

variable {e : Entry}

/-- An entry that compiles and is not refused becomes at least one statement, and a label exactly
one. -/
theorem length_statements {options : Options} {out : List Statement}
    (h : (e.compile options).result = .ok out) (hf : e.refusal? = none) :
    1 ≤ e.statements.length ∧ (labelOf? e.tokens ≠ none → e.statements.length = 1) := by
  cases hl : labelOf? e.tokens with
  | some label =>
    have hone : e.statements.length = 1 := by rw [statements, hl, List.length_singleton]
    exact ⟨Nat.le_of_eq hone.symm, fun _ => hone⟩
  | none =>
    refine ⟨?_, fun hne => absurd rfl hne⟩
    cases hr : Instruction.resolve e.tokens with
    | error r =>
      rw [refusal?, hl, hr] at hf
      cases hf
    | ok o =>
      rw [lower_eq (lower_of_compile h hl hr), List.length_map]
      exact List.length_pos_of_ne_nil (Instruction.expand_ne_nil hr)

theorem provenance_of_mem_statements {s : Statement} (hs : s ∈ e.statements) :
    s.provenance = e.provenance := by
  unfold statements at hs
  split at hs
  · rw [List.mem_singleton.mp hs]
  · split at hs
    · next o ho =>
      cases hlow : lower e.stack o e.tokens e.provenance with
      | error error =>
        rw [hlow] at hs
        cases hs
      | ok lines =>
        rw [hlow, lower_eq hlow] at hs
        obtain ⟨line, -, rfl⟩ := List.mem_map.mp hs
        rfl
    · cases hs

theorem location_of_mem_copies {s : Statement} (hs : s ∈ e.copies.flatten) :
    s.location = e.provenance.location := by
  rw [copies, BlockStack.spread, Group.flatten_spread, List.flatten_singleton] at hs
  obtain ⟨values, -, hs⟩ := List.mem_flatMap.mp hs
  obtain ⟨s', hs', rfl⟩ := List.mem_map.mp hs
  rw [Statement.location_bindEach, Statement.location, provenance_of_mem_statements hs']

/-- What becomes of an entry, all of it at its own line: one refusal, or its copies, as many as it
has statements and the loops around it have iterations. -/
structure Accounted (e : Entry) : Prop where
  kept_location : ∀ s ∈ e.kept, s.location = e.provenance.location
  skips_location : ∀ f ∈ e.skips, f.provenance.location = e.provenance.location
  of_refused : ∀ f, e.refusal? = some f → e.kept = [] ∧ e.skips = [f]
  of_accepted : e.refusal? = none →
    1 ≤ e.statements.length ∧ (labelOf? e.tokens ≠ none → e.statements.length = 1) ∧
      e.kept.length + e.skips.length =
        if e.stack.any Block.isDisabled then 0
        else e.statements.length * ((e.stack.filterMap Block.elements?).map List.length).prod

theorem length_copies (e : Entry) :
    e.copies.flatten.length =
      if e.stack.any Block.isDisabled then 0
      else e.statements.length * ((e.stack.filterMap Block.elements?).map List.length).prod := by
  rw [copies, BlockStack.spread, Group.flatten_spread, List.flatten_singleton,
    List.length_flatMap]
  simp only [List.length_map]
  rw [List.map_const', List.sum_replicate_nat, BlockStack.length_iterations]
  split
  · rw [Nat.zero_mul]
  · rw [Nat.mul_comm]

theorem length_kept_add (e : Entry) :
    e.kept.length + (e.copies.flatten.filterMap Statement.refusal?).length =
      e.copies.flatten.length := by
  rw [kept, List.length_filterMap_eq_countP, ← List.countP_eq_length_filter, Nat.add_comm,
    List.length_eq_countP_add_countP fun s => s.refusal?.isSome]
  congr 2
  funext s
  cases s.refusal? <;> rfl

theorem statements_of_refused {f : Refusal} (h : e.refusal? = some f) : e.statements = [] := by
  unfold refusal? at h
  unfold statements
  split at h
  · cases h
  · split at h
    · cases h
    · rfl

theorem accounted {options : Options} {out : List Statement}
    (h : (e.compile options).result = .ok out) : e.Accounted where
  kept_location s hs := location_of_mem_copies (List.mem_filter.mp hs).1
  skips_location f hf := by
    rcases List.mem_append.mp hf with hf | hf
    · rw [provenance_of_refusal (Option.mem_toList.mp hf)]
    · obtain ⟨s, hs, hf⟩ := List.mem_filterMap.mp hf
      rw [Statement.provenance_of_refusal hf]
      exact location_of_mem_copies hs
  of_refused f hf := by
    have hcopies : e.copies.flatten = [] := by
      rw [copies, BlockStack.spread, Group.flatten_spread, statements_of_refused hf]
      simp
    simp [kept, skips, hcopies, hf]
  of_accepted hf := by
    obtain ⟨hpos, hlabel⟩ := length_statements h hf
    refine ⟨hpos, hlabel, ?_⟩
    rw [skips, hf, Option.toList_none, List.nil_append, length_kept_add, length_copies]

end Entry

section Unit

variable {settings : Settings} {filename source : String} {seed : Symbols} {output : Output}

/-- The refusals of a run are those of its entries and those of what it releases. -/
theorem collect_refused_perm (lines : List String) (p : Progress) (number : Nat) :
    (collect settings filename (refusedAt settings filename) p number lines).Perm
      ((collect settings filename (entriesAt settings filename) p number lines).filterMap
          Entry.refusal? ++
        (collect settings filename (releasedAt settings filename) p number lines).filterMap
          Statement.refusal?) := by
  induction lines generalizing p number with
  | nil => exact .refl _
  | cons source lines ih =>
    simp only [collect, refusedAt, List.filterMap_append]
    cases unitLine settings filename p number source with
    | error error => simp
    | ok q =>
      refine ((ih q (number + 1)).append_left _).trans ?_
      -- the entries refused behind this line change places with what this line releases
      have hswap := @List.perm_append_comm _
        ((releasedAt settings filename p number source).filterMap Statement.refusal?)
        ((collect settings filename (entriesAt settings filename) q (number + 1)
          lines).filterMap Entry.refusal?)
      simpa only [List.append_assoc] using (hswap.append_right _).append_left _

/-- **Nothing is lost silently.**  The entries of a unit are the statements of its source that have
tokens and are no block syntax.  If the unit is not strict and succeeds, its output is what the
entries keep, its reports of skipped lines are what they skip, and every entry accounts for all its
copies. -/
theorem unit_conserves (hlenient : settings.options.strict = false)
    (h : unit settings filename source seed = .ok output) :
    (entries settings filename source seed).map Entry.reading =
        readings settings filename source ∧
      output.statements.Perm ((entries settings filename source seed).flatMap Entry.kept) ∧
      (output.diagnostics.filter Diagnostic.isSkip).Perm
        (((entries settings filename source seed).flatMap Entry.skips).map Refusal.warning) ∧
      ∀ e ∈ entries settings filename source seed, e.Accounted := by
  obtain ⟨hkept, hskips⟩ := unit_adds hlenient h
  obtain ⟨groups, hgroups, hperm⟩ := unit_groups h
  have hreleased : (released settings filename source seed).Perm
      ((entries settings filename source seed).flatMap fun e => e.copies.flatten) := by
    have hflatten := hperm.flatten
    rw [List.flatMap_def, List.flatten_flatten, List.map_map, ← List.flatMap_def] at hflatten
    rw [hgroups]
    exact hflatten
  refine ⟨entries_reading h, ?_, ?_, fun e he => ?_⟩
  · rw [hkept]
    refine (hreleased.filter _).trans (.of_eq ?_)
    exact List.filter_flatMap ..
  · rw [hskips]
    refine List.Perm.map _ ?_
    refine (collect_refused_perm ..).trans ?_
    refine ((hreleased.filterMap _).append_left _).trans ?_
    rw [List.filterMap_flatMap, List.filterMap_eq_flatMap_toList]
    exact List.flatMap_append_perm ..
  · obtain ⟨out, hout⟩ := compile_of_mem_entries h he
    exact Entry.accounted hout

/-- A loop with a copy that is kept and one that is not, and an instruction that does not exist. -/
theorem unit_conserves_loop :
    ∃ output, unit {} "main.mlogx" "&for i of x \"a\" \x7b\nop add n $i 1\n\x7d\nnope" {} =
        .ok output ∧
      (output.statements.map Statement.text = ["op add n x 1"] ∧
        (output.diagnostics.filter Diagnostic.isSkip).map Diagnostic.location =
          [some ⟨"main.mlogx", 2⟩, some ⟨"main.mlogx", 4⟩]) ∧
      ∀ e ∈ entries {} "main.mlogx" "&for i of x \"a\" \x7b\nop add n $i 1\n\x7d\nnope" {},
        e.Accounted := by
  have hviews : (unit {} "main.mlogx"
      "&for i of x \"a\" \x7b\nop add n $i 1\n\x7d\nnope" {}).toOption.map (fun output =>
        (output.statements.map Statement.text,
          (output.diagnostics.filter Diagnostic.isSkip).map Diagnostic.location)) =
      some (["op add n x 1"], [some ⟨"main.mlogx", 2⟩, some ⟨"main.mlogx", 4⟩]) := by
    decide
  cases h : unit {} "main.mlogx"
      "&for i of x \"a\" \x7b\nop add n $i 1\n\x7d\nnope" {} with
  | error e =>
    rw [h] at hviews
    cases hviews
  | ok output =>
    rw [h] at hviews
    exact ⟨output, rfl, Prod.mk.inj (Option.some.inj hviews), (unit_conserves rfl h).2.2.2⟩

end Unit

end Mlog.Compile
