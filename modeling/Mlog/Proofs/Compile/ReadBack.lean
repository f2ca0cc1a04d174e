import Mlog.Proofs.Block.Legible
import Mlog.Proofs.Compile.Nesting
import Mlog.Proofs.Compile.Wholeness

/-!
# Output that is read back

The text of a statement is its tokens joined by spaces, and whoever reads it divides it again.  A
statement is made of tokens of the source, of the words of templates and of the names of scopes, and
it is read back as it was made (`Entry.readsBack`).  What can go wrong comes later: a loop puts its
values into tokens that are already divided, and nothing divides them again.  `unit_reads_back`
says that a statement of the output is read back exactly if the values leave each of its tokens a
token, as values without spaces, quotes and backslashes do.
-/
set_option autoImplicit false

namespace Mlog

open Line (IsToken Quiet)

/-- The text of the statement is divided into its tokens. -/
def Statement.ReadsBack (s : Statement) : Prop := Line.tokens s.text = .ok s.tokens

theorem Statement.readsBack_iff {s : Statement} :
    s.ReadsBack ↔ ∀ token ∈ s.tokens, IsToken token :=
  Line.tokens_intercalate_iff s.tokens

theorem Line.IsToken.bindEach {token : String} {values : List (String × String)}
    (h : IsToken token) (hvalues : ∀ nv ∈ values, nv.2.toList ≠ [] ∧ Quiet ' ' nv.2.toList) :
    IsToken (Reference.bindEach values token) := by
  induction values generalizing token with
  | nil => exact h
  | cons nv values ih =>
    obtain ⟨⟨hne, hquiet⟩, hvalues⟩ := List.forall_mem_cons.mp hvalues
    exact ih (h.bind hne hquiet) hvalues

/-! ## Instructions -/

namespace Shape

theorem quiet_of_isHyphenWord {cs : List Char} (h : ∀ c ∈ cs, Text.isHyphenWord c = true) :
    Quiet ' ' cs := by
  intro c hc
  refine ⟨?_, ?_, ?_⟩ <;>
    · rintro rfl
      exact absurd (h _ hc) (by decide)

theorem quiet_of_isSensedName {cs : List Char} (h : isSensedName cs = true) : Quiet ' ' cs := by
  obtain ⟨c, rest, hc, hrest, hcs⟩ := isSensedName_cases h
  have hname : Quiet ' ' (c :: rest) := by
    apply quiet_of_isHyphenWord
    refine List.forall_mem_cons.mpr ⟨?_, hrest⟩
    simp [Text.isHyphenWord, Text.isWord_of_isAlpha hc]
  rcases hcs with rfl | rfl
  · exact hname
  · exact List.forall_mem_cons.mpr ⟨by decide, hname⟩

/-- The two halves of a shorthand hold no space, quote or backslash, and the first is not empty. -/
theorem quiet_of_isShorthand {thing property : String}
    (h : isShorthand (thing ++ "." ++ property).toList = true)
    (hproperty : isSensedName property.toList = true) :
    thing.toList ≠ [] ∧ Quiet ' ' thing.toList := by
  have hlist : (thing ++ "." ++ property).toList = thing.toList ++ '.' :: property.toList := by
    simp
  rw [hlist] at h
  constructor
  · intro hnil
    rw [hnil] at h
    cases h
  · unfold isShorthand at h
    cases hd : dropOne '@' (thing.toList ++ '.' :: property.toList) with
    | nil =>
      rw [hd] at h
      cases h
    | cons c rest =>
      simp only [hd, Bool.and_eq_true] at h
      obtain ⟨hc, h⟩ := h
      split at h
      · next property' hrest =>
        -- the name of the thing ends at the dot in front of the property
        have hname : ∀ d ∈ c :: rest.takeWhile Text.isHyphenWord, Text.isHyphenWord d = true := by
          refine List.forall_mem_cons.mpr ⟨?_, List.all_eq_true.mp List.all_takeWhile⟩
          simp [Text.isHyphenWord, Text.isWord_of_isNameStart hc]
        have hsplit : dropOne '@' (thing.toList ++ '.' :: property.toList) =
            (c :: rest.takeWhile Text.isHyphenWord) ++ '.' :: property' := by
          rw [hd, ← hrest, List.cons_append, List.takeWhile_append_dropWhile]
        have hhalves : ∀ a, thing.toList ++ '.' :: property.toList = a ++ '.' :: property' →
            thing.toList = a := by
          intro a ha
          have hcut := congrArg (Text.cutLast '.') ha
          rw [Text.cutLast_append _ (not_mem_of_isSensedName hproperty),
            Text.cutLast_append _ (not_mem_of_isSensedName h)] at hcut
          exact (Prod.mk.inj (Option.some.inj hcut)).1
        rcases eq_dropOne '@' (thing.toList ++ '.' :: property.toList) with hcs | hcs
        · rw [hhalves _ (hcs.trans hsplit)]
          exact quiet_of_isHyphenWord hname
        · rw [hhalves ('@' :: _) (hcs.trans (congrArg ('@' :: ·) hsplit))]
          exact List.forall_mem_cons.mpr ⟨by decide, quiet_of_isHyphenWord hname⟩
      · cases h

end Shape

namespace Instruction

theorem isToken_slot : ∀ o ∈ table, ∀ line ∈ templateLines o.expansion, ∀ slot ∈ line,
    IsToken slot.text := by
  decide +kernel

theorem isToken_sensedProperty {property : String}
    (h : Shape.isSensedName property.toList = true) : IsToken (sensedProperty property) := by
  have hquiet := Shape.quiet_of_isSensedName h
  have hne : property.toList ≠ [] := by
    intro hnil
    rw [hnil] at h
    cases h
  unfold sensedProperty
  split
  · exact Line.isToken_of_quiet hne hquiet
  · have hlist : ("@" ++ property).toList = '@' :: property.toList := by simp
    apply Line.isToken_of_quiet
    · simp
    · rw [hlist]
      exact List.forall_mem_cons.mpr ⟨by decide, hquiet⟩

/-- What an instruction of tokens expands to is tokens. -/
theorem isToken_of_mem_expand {o : Overload} {tokens line : List String}
    (h : resolve tokens = .ok o) (htokens : ∀ token ∈ tokens, IsToken token)
    (hline : line ∈ o.expand tokens) : ∀ token ∈ line, IsToken token := by
  obtain ⟨hmem, hh, -⟩ := of_resolve h
  cases hx : o.expansion with
  | asWritten =>
    obtain rfl : line = tokens := by simpa [Overload.expand, hx, Expansion.apply] using hline
    exact htokens
  | template lines =>
    have hslots := isToken_slot o hmem
    rw [hx] at hslots
    simp only [Overload.expand, hx, Expansion.apply] at hline
    obtain ⟨slots, hslotsMem, rfl⟩ := List.mem_map.mp hline
    intro token htoken
    obtain ⟨slot, hslot, rfl⟩ := List.mem_map.mp htoken
    have htext := hslots slots hslotsMem slot hslot
    cases slot with
    | word text => exact htext
    | operand n =>
      rw [Slot.fill]
      cases hn : tokens[n]? with
      | none => exact htext
      | some operand => exact htokens operand (List.mem_of_getElem? hn)
  | eachOperand =>
    obtain ⟨operands, rfl⟩ := List.head?_eq_some_iff.mp hh
    simp only [Overload.expand, hx, Expansion.apply] at hline
    obtain ⟨value, hvalue, rfl⟩ := List.mem_map.mp hline
    refine List.forall_mem_cons.mpr ⟨htokens _ List.mem_cons_self, ?_⟩
    intro token htoken
    rw [List.mem_singleton.mp htoken]
    exact htokens value (List.mem_cons_of_mem _ hvalue)
  | shorthand =>
    -- the operand is cut in two, and each half is plain enough to stand alone
    obtain ⟨output, thing, property, rfl, -, hshape, hname⟩ := shorthand_cases h hx
    rw [expand_shorthand hx (Shape.not_mem_of_isSensedName hname)] at hline
    obtain rfl := List.mem_singleton.mp hline
    obtain ⟨hne, hquiet⟩ := Shape.quiet_of_isShorthand hshape hname
    have hthing := Line.isToken_of_quiet hne hquiet
    have hproperty := isToken_sensedProperty hname
    obtain ⟨hsensor, houtput, -⟩ := by simpa only [List.forall_mem_cons] using htokens
    simp only [List.forall_mem_cons]
    exact ⟨hsensor, houtput, hthing, hproperty, List.forall_mem_nil _⟩

end Instruction

namespace Compile

/-! ## Entries -/

section Scoped

variable {stack : BlockStack} (h : stack.Legible)

include h

theorem isToken_qualifyOperand (param : Option Param) {token : String} (ht : IsToken token) :
    IsToken (qualifyOperand stack param token) := by
  unfold qualifyOperand
  cases param.bind Param.ty? with
  | none => exact ht
  | some ty =>
    have hcases : ∀ named : Bool, IsToken (if named then stack.qualify token else token) := by
      intro named
      cases named with
      | true => exact BlockStack.isToken_qualify h ht
      | false => exact ht
    exact hcases _

theorem isToken_scopedLine {line : List String} (hline : ∀ token ∈ line, IsToken token) :
    ∀ token ∈ scopedLine stack line, IsToken token := by
  unfold scopedLine
  cases Instruction.resolve line with
  | error r => exact hline
  | ok base =>
    intro token htoken
    rcases List.mem_append.mp htoken with htoken | htoken
    · exact hline token (List.mem_of_mem_take htoken)
    · obtain ⟨⟨operand, position⟩, hmem, rfl⟩ := List.mem_map.mp htoken
      apply isToken_qualifyOperand h
      exact hline operand (List.mem_of_mem_drop (List.fst_mem_of_mem_zipIdx hmem))

end Scoped

namespace Entry

/-- An entry of tokens, in blocks that put tokens into statements. -/
structure Legible (e : Entry) : Prop where
  stack : e.stack.Legible
  tokens : ∀ token ∈ e.tokens, IsToken token

/-- **A statement is read back as it was made.** -/
theorem readsBack {e : Entry} {options : Options} {out : List Statement} (he : e.Legible)
    (h : (e.compile options).result = .ok out) : ∀ s ∈ e.statements, s.ReadsBack := by
  intro s hs
  rw [Statement.readsBack_iff]
  cases hl : labelOf? e.tokens with
  | some label =>
    rw [statements, hl] at hs
    obtain rfl := List.mem_singleton.mp hs
    have hcolon : IsToken (label ++ ":") :=
      he.tokens _ (by rw [tokens_of_labelOf? hl]; exact List.mem_singleton_self _)
    intro token htoken
    obtain rfl := List.mem_singleton.mp htoken
    exact BlockStack.isToken_qualify_colon he.stack hcolon
  | none =>
    cases hr : Instruction.resolve e.tokens with
    | error r =>
      rw [statements, hl, hr] at hs
      cases hs
    | ok o =>
      rw [lower_eq (lower_of_compile h hl hr)] at hs
      obtain ⟨line, hline, rfl⟩ := List.mem_map.mp hs
      exact isToken_scopedLine he.stack (Instruction.isToken_of_mem_expand hr he.tokens hline)

end Entry

/-! ## Runs -/

section Run

variable {settings : Settings} {location : Location} {source text : String} {stack : BlockStack}
  {out : List Statement}

theorem legible_of_entryOf? {e : Entry} (h : stack.Legible)
    (he : entryOf? settings location source stack text = some e) : e.Legible := by
  unfold entryOf? at he
  split at he
  · next first rest ht =>
    split at he
    · rw [← Option.some.inj he]
      exact ⟨h, fun token htoken => Line.isToken_of_mem_tokens ht htoken⟩
    · cases he
  · cases he

theorem legible_part (h : stack.Legible)
    (hr : (part settings location source stack text).result = .ok out) :
    (part settings location source stack text).stack.Legible := by
  rcases part_cases hr with ⟨e, -, hpass⟩ | ⟨-, hstack, -⟩ | ⟨-, hclose⟩ |
    ⟨first, header, o, kind, block, warnings, ht, -, -, -, -, hopen, hstack, -⟩
  · exact BlockStack.legible_pass h hpass
  · rw [hstack]
    exact h
  · exact BlockStack.legible_close h hclose
  · -- a header is divided like any statement, so what it names is tokens
    rw [hstack]
    refine BlockStack.legible_cons.mpr ⟨Block.legible_of_ofHeader ?_ hopen, h⟩
    intro token htoken
    apply Line.isToken_of_mem_tokens ht
    rw [← List.cons_append]
    exact List.mem_append_left _ htoken

theorem legible_parts {texts : List String} (h : stack.Legible)
    (hr : (parts settings location source stack texts).result = .ok out) :
    (parts settings location source stack texts).stack.Legible ∧
      ∀ e ∈ partsEntries settings location source stack texts, e.Legible := by
  induction texts generalizing stack out with
  | nil => exact ⟨h, List.forall_mem_nil _⟩
  | cons text texts ih =>
    obtain ⟨first, others, hfirst, hothers, -⟩ := (parts_cons_eq_ok_iff ..).mp hr
    obtain ⟨hstack, hentries⟩ := ih (legible_part h hfirst) hothers
    rw [parts_cons_stack settings location source hfirst, partsEntries, hfirst]
    refine ⟨hstack, List.forall_mem_append.mpr ⟨?_, hentries⟩⟩
    intro e he
    exact legible_of_entryOf? h (Option.mem_toList.mp he)

variable {filename : String} {p q : Progress} {number : Nat}

theorem legible_unitLine (h : p.stack.Legible)
    (hq : unitLine settings filename p number source = .ok q) :
    q.stack.Legible ∧ ∀ e ∈ entriesAt settings filename p number source, e.Legible := by
  rcases unitLine_cases hq with ⟨hd, hstack, -⟩ | ⟨hd, statements, verdicts, hr, -, rfl⟩
  · rw [hstack, entriesAt, if_pos hd]
    exact ⟨h, List.forall_mem_nil _⟩
  · simp only [entriesAt, hd, Bool.false_eq_true, if_false, Progress.record]
    unfold line lineEntries at *
    cases ht : Line.statements (Line.clean source) with
    | error e =>
      rw [ht] at hr
      cases hr
    | ok texts =>
      rw [ht] at hr
      exact legible_parts h hr

theorem legible_entries {lines : List String} (h : p.stack.Legible)
    (hq : unitLines settings filename p number lines = .ok q) :
    ∀ e ∈ collect settings filename (entriesAt settings filename) p number lines, e.Legible := by
  induction lines generalizing p number with
  | nil => exact List.forall_mem_nil _
  | cons line lines ih =>
    obtain ⟨mid, hmid, hq⟩ := Except.bind_eq_ok_iff.mp hq
    obtain ⟨hstack, hentries⟩ := legible_unitLine h hmid
    rw [collect, hmid]
    exact List.forall_mem_append.mpr ⟨hentries, ih hstack hq⟩

/-- Only what comes out of the blocks goes to the output. -/
theorem mem_released_of_mem {lines : List String}
    (hq : unitLines settings filename p number lines = .ok q) :
    ∀ s ∈ q.statements, s ∈ p.statements ∨
      s ∈ collect settings filename (releasedAt settings filename) p number lines := by
  induction lines generalizing p number with
  | nil =>
    obtain rfl : p = q := Except.ok.inj hq
    exact fun s hs => Or.inl hs
  | cons line lines ih =>
    obtain ⟨mid, hmid, hq⟩ := Except.bind_eq_ok_iff.mp hq
    rw [collect, hmid]
    intro s hs
    rcases ih hq s hs with hs | hs
    · rcases unitLine_cases hmid with ⟨-, -, hsame, -⟩ | ⟨hd, statements, verdicts, hr, hv, rfl⟩
      · rw [hsame] at hs
        exact Or.inl hs
      · rcases List.mem_append.mp hs with hs | hs
        · exact Or.inl hs
        · -- a verdict that keeps a statement keeps the one it judged
          obtain ⟨verdict, hverdict, hkept⟩ := List.mem_filterMap.mp hs
          obtain ⟨s', hs', hjudge⟩ := Except.exists_of_mem_mapM hv verdict hverdict
          cases verdict with
          | dropped warning => cases hkept
          | kept t =>
            obtain rfl : t = s := Option.some.inj hkept
            obtain ⟨rfl, -⟩ := admitted_of_judge hjudge
            refine Or.inr (List.mem_append_left _ ?_)
            simp only [releasedAt, hd, Bool.false_eq_true, if_false, hr]
            exact hs'
    · exact Or.inr (List.mem_append_right _ hs)

end Run

section Unit

variable {settings : Settings} {filename source : String} {seed : Symbols} {output : Output}

/-- Every statement of the output is a copy of one that an entry became. -/
theorem exists_copy_of_mem (h : unit settings filename source seed = .ok output) {s : Statement}
    (hs : s ∈ output.statements) :
    ∃ e ∈ entries settings filename source seed, ∃ made ∈ e.statements,
      ∃ values ∈ e.stack.iterations, s = made.bindEach values := by
  obtain ⟨groups, hgroups, hperm⟩ := unit_groups h
  obtain ⟨p, hp, -, rfl⟩ := unit_eq_ok_iff.mp h
  have hreleased : s ∈ released settings filename source seed := by
    rcases mem_released_of_mem hp s hs with hs | hs
    · cases hs
    · exact hs
  rw [hgroups] at hreleased
  obtain ⟨group, hgroup, hs⟩ := List.mem_flatten.mp hreleased
  obtain ⟨e, he, hcopies⟩ := List.mem_flatMap.mp (hperm.mem_iff.mp hgroup)
  rw [e.copies_eq] at hcopies
  obtain ⟨values, hvalues, rfl⟩ := List.mem_map.mp hcopies
  obtain ⟨made, hmade, rfl⟩ := List.mem_map.mp hs
  exact ⟨e, he, made, hmade, values, hvalues, rfl⟩

/-- **When the output is read back.**  Every statement of the output is one that was made from a
line of the source, with the values of the loops around the line put in.  As it was made it is read
back.  With the values it is read back exactly if each of its tokens is a token still, and so it is
if no value holds a space, a quote or a backslash. -/
theorem unit_reads_back (h : unit settings filename source seed = .ok output) :
    ∀ s ∈ output.statements, ∃ e ∈ entries settings filename source seed,
      ∃ made ∈ e.statements, ∃ values ∈ e.stack.iterations, s = made.bindEach values ∧
        made.ReadsBack ∧
          (s.ReadsBack ↔ ∀ token ∈ made.tokens, IsToken (Reference.bindEach values token)) ∧
            ((∀ nv ∈ values, Quiet ' ' nv.2.toList) → s.ReadsBack) := by
  intro s hs
  obtain ⟨e, he, made, hmade, values, hvalues, rfl⟩ := exists_copy_of_mem h hs
  obtain ⟨p, hp, -⟩ := unitLines_of_unit h
  obtain ⟨out, hout⟩ := compile_of_mem_entries h he
  have hlegible : e.Legible := legible_entries BlockStack.legible_nil hp e he
  have hread := Entry.readsBack hlegible hout made hmade
  have hiff : (made.bindEach values).ReadsBack ↔
      ∀ token ∈ made.tokens, IsToken (Reference.bindEach values token) := by
    rw [Statement.readsBack_iff, Statement.tokens_bindEach, List.forall_mem_map]
  refine ⟨e, he, made, hmade, values, hvalues, rfl, hread, hiff, ?_⟩
  intro hquiet
  rw [hiff]
  intro token htoken
  -- values are tokens, so none is empty
  apply (Statement.readsBack_iff.mp hread token htoken).bindEach
  intro nv hnv
  have hvalue := BlockStack.isToken_of_mem_iterations hlegible.stack hvalues nv hnv
  exact ⟨(Line.isToken_iff.mp hvalue).1, hquiet nv hnv⟩

/-- A loop whose values are put behind a name, inside a scope; one of them is a string. -/
theorem unit_reads_back_names :
    ∃ output, unit {} "main.mlogx"
        "namespace n \x7b\n&for i of x \"a b\" \x7b\nprint y$i\n\x7d\n\x7d" {} = .ok output ∧
      output.statements.map Statement.text = ["print _n_yx", "print _n_y\"a b\""] ∧
      ∀ s ∈ output.statements, ∃ e ∈ entries {} "main.mlogx"
          "namespace n \x7b\n&for i of x \"a b\" \x7b\nprint y$i\n\x7d\n\x7d" {},
        ∃ made ∈ e.statements, ∃ values ∈ e.stack.iterations, s = made.bindEach values ∧
          made.ReadsBack ∧
            (s.ReadsBack ↔ ∀ token ∈ made.tokens, IsToken (Reference.bindEach values token)) ∧
              ((∀ nv ∈ values, Quiet ' ' nv.2.toList) → s.ReadsBack) := by
  have htexts : (unit {} "main.mlogx"
      "namespace n \x7b\n&for i of x \"a b\" \x7b\nprint y$i\n\x7d\n\x7d" {}).toOption.map
        (·.statements.map Statement.text) = some ["print _n_yx", "print _n_y\"a b\""] := by
    decide +kernel
  cases h : unit {} "main.mlogx"
      "namespace n \x7b\n&for i of x \"a b\" \x7b\nprint y$i\n\x7d\n\x7d" {} with
  | error e =>
    rw [h] at htexts
    cases htexts
  | ok output =>
    rw [h] at htexts
    exact ⟨output, rfl, Option.some.inj htexts, unit_reads_back h⟩

/-- A string put into a string: the instruction has one operand, and its text is read as two. -/
theorem unit_reads_string_apart :
    ∃ output, unit {} "main.mlogx" "&for i of \"a b\" \x7b\nprint \"x$i\"\n\x7d" {} =
        .ok output ∧
      ∃ s ∈ output.statements, s.tokens = ["print", "\"x\"a b\"\""] ∧
        Line.tokens s.text = .ok ["print", "\"x\"a", "b\"\""] ∧ ¬ s.ReadsBack := by
  have htokens : (unit {} "main.mlogx"
      "&for i of \"a b\" \x7b\nprint \"x$i\"\n\x7d" {}).toOption.map
        (·.statements.map Statement.tokens) = some [["print", "\"x\"a b\"\""]] := by
    decide +kernel
  cases h : unit {} "main.mlogx" "&for i of \"a b\" \x7b\nprint \"x$i\"\n\x7d" {} with
  | error e =>
    rw [h] at htokens
    cases htokens
  | ok output =>
    rw [h] at htokens
    obtain ⟨s, hs, hs'⟩ := List.map_eq_singleton_iff.mp (Option.some.inj htokens)
    have hread : Line.tokens s.text = .ok ["print", "\"x\"a", "b\"\""] := by
      rw [Statement.text, hs']
      rfl
    refine ⟨output, rfl, s, by rw [hs]; exact List.mem_singleton_self s, hs', hread, ?_⟩
    intro hback
    rw [Statement.ReadsBack, hread, hs'] at hback
    exact absurd (Except.ok.inj hback) (by decide)

end Unit

end Compile

end Mlog
