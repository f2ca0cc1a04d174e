import Mathlib.Data.List.TakeWhile
import Mlog.Proofs.Compile.Nesting

/-!
# Bodies that are switched off

The body of a conditional that is false is compiled like any other: its statements pass through the
loops and conditionals inside it, and the loops release their copies.  All of them come to the
conditional, and nothing passes it.  So as long as lines only end blocks that they opened
themselves, they add warnings and leave the rest of the compilation as it was (`unitLines_above`).

A unit takes no notice of the warnings it has given (`unitLines_diagnostics`).  Without the body it
therefore compiles to the same statements, header and symbols (`unit_disabled`).
-/
set_option autoImplicit false

namespace Mlog

namespace BlockStack

/-- Nothing passes the blocks, and they keep nothing back. -/
def Shut (floor : BlockStack) : Prop := ∀ statements, floor.pass statements = (floor, [])

theorem shut_of_disabled (location : Location) (outer : BlockStack) :
    Shut (.conditional false location :: outer) := by
  intro statements
  show (Block.conditional false location :: (pass outer []).1, (pass outer []).2) = _
  rw [pass_nil]

/-- The blocks above a shut floor may take statements in, but nothing comes out. -/
theorem pass_above {floor : BlockStack} (hfloor : floor.Shut) (inner : BlockStack)
    (statements : List Statement) :
    ∃ inner', inner'.length = inner.length ∧
      pass (inner ++ floor) statements = (inner' ++ floor, []) := by
  induction inner generalizing statements with
  | nil => exact ⟨[], rfl, hfloor statements⟩
  | cons b inner ih =>
    obtain ⟨inner', hlength, hpass⟩ := ih (b.pass statements).2
    refine ⟨(b.pass statements).1 :: inner', by simp [hlength], ?_⟩
    simp only [List.cons_append, pass, hpass]

end BlockStack

namespace Compile

/-! ## Above a shut floor -/

/-- So many blocks are open above a floor. -/
def Above (floor : BlockStack) (n : Nat) (stack : BlockStack) : Prop :=
  ∃ inner : BlockStack, inner.length = n ∧ stack = inner ++ floor

section Above

variable {settings : Settings} {floor stack : BlockStack} (hfloor : floor.Shut) {n m : Nat}

include hfloor

theorem ne_nil_of_above (h : Above floor n stack) : stack ≠ [] := by
  obtain ⟨inner, -, rfl⟩ := h
  intro hnil
  obtain ⟨-, rfl⟩ := List.append_eq_nil_iff.mp hnil
  -- what passes no block at all comes out
  have hempty := hfloor [⟨[], ⟨"", 0, "", "", ""⟩⟩]
  cases hempty

theorem pass_of_above {statements out : List Statement} {stack' : BlockStack}
    (h : Above floor n stack) (hp : stack.pass statements = (stack', out)) :
    out = [] ∧ Above floor n stack' := by
  obtain ⟨inner, rfl, rfl⟩ := h
  obtain ⟨inner', hlength, hpass⟩ := BlockStack.pass_above hfloor inner statements
  rw [hpass] at hp
  obtain ⟨rfl, rfl⟩ := Prod.mk.inj hp
  exact ⟨rfl, inner', hlength, rfl⟩

theorem close_of_above {out : List Statement} {stack' : BlockStack}
    (h : Above floor (n + 1) stack) (hc : stack.close = .ok (stack', out)) :
    out = [] ∧ Above floor n stack' := by
  obtain ⟨inner, hlength, rfl⟩ := h
  obtain ⟨b, inner, rfl⟩ := List.exists_cons_of_length_eq_add_one hlength
  have habove : Above floor n (inner ++ floor) := ⟨inner, Nat.succ.inj hlength, rfl⟩
  exact pass_of_above hfloor habove (Except.ok.inj hc)

variable {location : Location} {source text : String} {out : List Statement}

/-- A statement that ends no block below the count lets nothing out. -/
theorem part_of_above (h : Above floor n stack)
    (hdepth : depth n (bracket? settings text).toList = some m)
    (hr : (part settings location source stack text).result = .ok out) :
    out = [] ∧ Above floor m (part settings location source stack text).stack := by
  rcases part_cases hr with ⟨e, he, hpass⟩ | ⟨ht, hstack, rfl⟩ | ⟨ht, hclose⟩ |
    ⟨first, header, o, kind, block, warnings, ht, hne, hk, -, -, -, hstack, rfl⟩
  · have hnone : bracket? settings text = none := bracket?_of_entry he
    obtain rfl : n = m := by simpa [hnone, depth] using hdepth
    exact pass_of_above hfloor h hpass
  · obtain rfl : n = m := by simpa [bracket?, ht, depth] using hdepth
    rw [hstack]
    exact ⟨rfl, h⟩
  · have hcloses : bracket? settings text = some .closes := by
      rw [bracket?, ht]
      decide
    rw [hcloses] at hdepth
    cases n with
    | zero => cases hdepth
    | succ n =>
      obtain rfl : n = m := Option.some.inj hdepth
      exact close_of_above hfloor h hclose
  · have hopens : bracket? settings text = some .opens := by
      simp [bracket?, ht, hk, hne]
    rw [hopens] at hdepth
    obtain rfl : n + 1 = m := Option.some.inj hdepth
    obtain ⟨inner, rfl, rfl⟩ := h
    rw [hstack]
    exact ⟨rfl, block :: inner, rfl, rfl⟩

theorem parts_of_above {texts : List String} (h : Above floor n stack)
    (hdepth : depth n (texts.flatMap fun text => (bracket? settings text).toList) = some m)
    (hr : (parts settings location source stack texts).result = .ok out) :
    out = [] ∧ Above floor m (parts settings location source stack texts).stack := by
  induction texts generalizing stack n out with
  | nil =>
    obtain rfl : n = m := Option.some.inj hdepth
    exact ⟨(Except.ok.inj hr).symm, h⟩
  | cons text texts ih =>
    rw [List.flatMap_cons, depth_append] at hdepth
    obtain ⟨k, hfirstDepth, hdepth⟩ := Option.bind_eq_some_iff.mp hdepth
    obtain ⟨first, others, hfirst, hothers, rfl⟩ := (parts_cons_eq_ok_iff ..).mp hr
    obtain ⟨rfl, habove⟩ := part_of_above hfloor h hfirstDepth hfirst
    rw [parts_cons_stack settings location source hfirst]
    exact ih habove hdepth hothers

variable {filename : String} {p q : Progress} {number : Nat}

/-- A line above a shut floor gives warnings and changes the open blocks, and that is all. -/
theorem unitLine_above (h : Above floor n p.stack)
    (hdepth : depth n (lineBrackets settings source) = some m)
    (hq : unitLine settings filename p number source = .ok q) :
    ∃ stack added, Above floor m stack ∧
      q = { p with stack := stack, diagnostics := p.diagnostics ++ added } := by
  have hd : Directive.isDirective source = false := by
    cases hd : Directive.isDirective source with
    | false => rfl
    | true =>
      have hne := ne_nil_of_above hfloor h
      simp [unitLine, hd, directiveLine, hne] at hq
  rcases unitLine_cases hq with ⟨hd', -⟩ | ⟨-, statements, verdicts, hr, hv, rfl⟩
  · rw [hd] at hd'
    cases hd'
  · unfold lineBrackets at hdepth
    unfold line at hr ⊢
    cases ht : Line.statements (Line.clean source) with
    | error e =>
      rw [ht] at hr
      cases hr
    | ok texts =>
      rw [ht] at hr hdepth
      obtain ⟨rfl, habove⟩ := parts_of_above hfloor h hdepth hr
      obtain rfl : [] = verdicts := Except.ok.inj hv
      refine ⟨_, (parts settings ⟨filename, number⟩ source p.stack texts).diagnostics, habove, ?_⟩
      simp [Progress.record]

/-- **Lines above a shut floor** give warnings and change the blocks above it, and that is all. -/
theorem unitLines_above {lines : List String} (h : Above floor n p.stack)
    (hdepth : depth n (lines.flatMap (lineBrackets settings)) = some m)
    (hq : unitLines settings filename p number lines = .ok q) :
    ∃ stack added, Above floor m stack ∧
      q = { p with stack := stack, diagnostics := p.diagnostics ++ added } := by
  induction lines generalizing p n number with
  | nil =>
    obtain rfl : n = m := Option.some.inj hdepth
    obtain rfl : p = q := Except.ok.inj hq
    exact ⟨p.stack, [], h, by simp⟩
  | cons source lines ih =>
    rw [List.flatMap_cons, depth_append] at hdepth
    obtain ⟨k, hfirst, hdepth⟩ := Option.bind_eq_some_iff.mp hdepth
    obtain ⟨mid, hmid, hq⟩ := Except.bind_eq_ok_iff.mp hq
    obtain ⟨stack, added, habove, rfl⟩ := unitLine_above hfloor h hfirst hmid
    obtain ⟨stack', added', habove', rfl⟩ := ih habove hdepth hq
    exact ⟨stack', added ++ added', habove', by simp⟩

end Above

/-! ## Warnings given so far -/

section Diagnostics

variable {settings : Settings} {filename : String} {p q : Progress} {number : Nat}

/-- What a line of code does if its statements compile and are judged. -/
theorem unitLine_of_verdicts {source : String} {statements : List Statement}
    {verdicts : List Verdict} (hd : Directive.isDirective source = false)
    (hr : (line settings ⟨filename, number⟩ p.stack source).result = .ok statements)
    (hv : statements.mapM (judge settings.options) = .ok verdicts) :
    unitLine settings filename p number source =
      .ok ({ p with
        stack := (line settings ⟨filename, number⟩ p.stack source).stack
        diagnostics := p.diagnostics ++
          (line settings ⟨filename, number⟩ p.stack source).diagnostics }.record verdicts) := by
  simp only [unitLine, hd, Bool.false_eq_true, if_false, hr]
  exact Except.bind_eq_ok_iff.mpr ⟨verdicts, hv, rfl⟩

theorem directiveLine_diagnostics {location : Location} {source : String}
    (h : directiveLine location p source = .ok q) :
    q.diagnostics = p.diagnostics ∧ ∀ given,
      directiveLine location { p with diagnostics := given } source =
        .ok { q with diagnostics := given } := by
  unfold directiveLine at h ⊢
  split at h
  · cases h
  · next hempty =>
    rw [Except.mapError_eq_ok_iff] at h
    obtain ⟨directive, hdirective, h⟩ := Except.bind_eq_ok_iff.mp h
    obtain ⟨header, hheader, h⟩ := Except.bind_eq_ok_iff.mp h
    obtain rfl := Except.ok.inj h
    refine ⟨rfl, fun given => ?_⟩
    simp only [if_neg hempty, Except.mapError_eq_ok_iff]
    exact Except.bind_eq_ok_iff.mpr
      ⟨directive, hdirective, Except.bind_eq_ok_iff.mpr ⟨header, hheader, rfl⟩⟩

theorem unitLine_diagnostics {source : String}
    (h : unitLine settings filename p number source = .ok q) :
    ∃ added, q.diagnostics = p.diagnostics ++ added ∧ ∀ given,
      unitLine settings filename { p with diagnostics := given } number source =
        .ok { q with diagnostics := given ++ added } := by
  cases hd : Directive.isDirective source with
  | true =>
    have hunit : ∀ p, unitLine settings filename p number source =
        directiveLine ⟨filename, number⟩ p source := by
      intro p
      simp only [unitLine, hd, if_true]
    rw [hunit] at h
    obtain ⟨hgiven, hline⟩ := directiveLine_diagnostics h
    refine ⟨[], by simpa using hgiven, fun given => ?_⟩
    rw [hunit, hline, List.append_nil]
  | false =>
    rcases unitLine_cases h with ⟨hd', -⟩ | ⟨-, statements, verdicts, hr, hv, rfl⟩
    · rw [hd] at hd'
      cases hd'
    · refine ⟨(line settings ⟨filename, number⟩ p.stack source).diagnostics ++
        verdicts.filterMap Verdict.warning?, by simp [Progress.record], fun given => ?_⟩
      rw [unitLine_of_verdicts (p := { p with diagnostics := given }) hd hr hv]
      simp only [Progress.record, List.append_assoc]

/-- **A unit takes no notice of the warnings it has given.** -/
theorem unitLines_diagnostics {lines : List String}
    (h : unitLines settings filename p number lines = .ok q) :
    ∃ added, q.diagnostics = p.diagnostics ++ added ∧ ∀ given,
      unitLines settings filename { p with diagnostics := given } number lines =
        .ok { q with diagnostics := given ++ added } := by
  induction lines generalizing p number with
  | nil =>
    obtain rfl : p = q := Except.ok.inj h
    exact ⟨[], by simp, fun given => by simp [unitLines]⟩
  | cons source lines ih =>
    obtain ⟨mid, hmid, h⟩ := Except.bind_eq_ok_iff.mp h
    obtain ⟨added, hadded, hline⟩ := unitLine_diagnostics hmid
    obtain ⟨added', hadded', hlines⟩ := ih h
    refine ⟨added ++ added', by rw [hadded', hadded, List.append_assoc], fun given => ?_⟩
    refine Except.bind_eq_ok_iff.mpr ⟨_, hline given, ?_⟩
    rw [← List.append_assoc]
    exact hlines (given ++ added)

end Diagnostics

/-! ## Blank lines -/

def IsBlank (line : String) : Prop := line.toList.all Text.isBlank = true

instance (line : String) : Decidable (IsBlank line) := inferInstanceAs (Decidable (_ = true))

theorem trimChars_of_blank {cs : List Char} (h : ∀ c ∈ cs, Text.isBlank c = true) :
    Text.trimChars cs = [] := by
  have hdrop : cs.dropWhile Text.isBlank = [] := List.dropWhile_eq_nil_iff.mpr h
  rw [Text.trimChars, hdrop]
  rfl

theorem strip_of_blank {cs : List Char} (h : ∀ c ∈ cs, Text.isBlank c = true) :
    Line.strip .code cs = cs := by
  induction cs with
  | nil => rfl
  | cons c cs ih =>
    obtain ⟨hc, hcs⟩ := List.forall_mem_cons.mp h
    have hhash : c ≠ '#' := by
      rintro rfl
      exact absurd hc (by decide)
    have hslash : c ≠ '/' := by
      rintro rfl
      exact absurd hc (by decide)
    have hquote : c ≠ '"' := by
      rintro rfl
      exact absurd hc (by decide)
    have hstrip : Line.strip .code (c :: cs) = c :: Line.strip .code cs := by
      simp_all [Line.strip]
    rw [hstrip, ih hcs]

theorem unitLine_of_blank {settings : Settings} {filename line : String} {p : Progress}
    {number : Nat} (h : IsBlank line) : unitLine settings filename p number line = .ok p := by
  have hblank := List.all_eq_true.mp h
  have hd : Directive.isDirective line = false := by
    rw [Directive.isDirective, Directive.split?, trimChars_of_blank hblank, Option.isSome_none]
  have hclean : Line.clean line = "" := by
    rw [Line.clean, strip_of_blank hblank, trimChars_of_blank hblank, String.ofList_nil]
  have hline : Compile.line settings ⟨filename, number⟩ p.stack line = ⟨[], p.stack, .ok []⟩ := by
    rw [Compile.line, hclean]
    rfl
  have hresult : (Compile.line settings ⟨filename, number⟩ p.stack line).result = .ok [] := by
    rw [hline]
  have hverdicts : ([] : List Statement).mapM (judge settings.options) = .ok [] := rfl
  rw [unitLine_of_verdicts hd hresult hverdicts, hline]
  simp [Progress.record]

theorem unitLines_of_blank {settings : Settings} {filename : String} {lines : List String}
    {p : Progress} {number : Nat} (h : ∀ line ∈ lines, IsBlank line) :
    unitLines settings filename p number lines = .ok p := by
  induction lines generalizing number with
  | nil => rfl
  | cons line lines ih =>
    obtain ⟨hline, hlines⟩ := List.forall_mem_cons.mp h
    exact Except.bind_eq_ok_iff.mpr ⟨p, unitLine_of_blank hline, ih hlines⟩

/-! ## Units -/

/-- A line that opens a conditional which is false, and does nothing after that. -/
structure OpensDisabled (settings : Settings) (line : String) : Prop where
  code : Directive.isDirective line = false
  header : ∃ done text condition, Line.statements (Line.clean line) = .ok (done ++ [text]) ∧
    statementTokens settings text = .ok ["&if", condition, "\x7b"] ∧
      Block.condition? condition = some false

section Opener

variable {settings : Settings} {location : Location} {source text : String} {stack : BlockStack}
  {out : List Statement}

theorem part_opens_disabled {condition : String}
    (ht : statementTokens settings text = .ok ["&if", condition, "\x7b"])
    (hc : Block.condition? condition = some false)
    (h : (part settings location source stack text).result = .ok out) :
    (part settings location source stack text).stack = .conditional false location :: stack := by
  have hkeyword : Instruction.isBlockKeyword "&if" = true := by decide
  have hopens : bracket? settings text = some .opens := by simp [bracket?, ht, hkeyword]
  rcases part_cases h with ⟨e, he, -⟩ | ⟨hempty, -⟩ | ⟨hclose, -⟩ |
    ⟨first, header, o, kind, block, warnings, htokens, -, -, hr, hkind, hopen, hstack, -⟩
  · rw [bracket?_of_entry he] at hopens
    cases hopens
  · rw [hempty] at ht
    cases ht
  · simp [hclose] at ht
  · have heq : "&if" :: ([condition] ++ ["\x7b"]) = first :: (header ++ ["\x7b"]) :=
      Except.ok.inj (ht.symm.trans htokens)
    obtain ⟨rfl, hheader⟩ := List.cons.inj heq
    obtain rfl := (List.append_left_inj _).mp hheader
    -- every overload of the keyword opens a conditional
    have hkinds : ∀ o ∈ Instruction.overloads "&if", o.block = some .conditional := by decide
    obtain ⟨hmem, hh, -⟩ := Instruction.of_resolve hr
    have hblock := hkinds o (Instruction.mem_overloads_iff.mpr ⟨hmem, (Option.some.inj hh).symm⟩)
    obtain rfl := Option.some.inj (hkind.symm.trans hblock)
    simp only [Block.ofHeader, List.getElem?_cons_succ, List.getElem?_cons_zero, Option.getD_some,
      hc] at hopen
    obtain ⟨rfl, -⟩ := Prod.mk.inj (Except.ok.inj hopen)
    exact hstack

theorem parts_concat_stack {done : List String}
    (h : (parts settings location source stack (done ++ [text])).result = .ok out) :
    ∃ stack' out', (part settings location source stack' text).result = .ok out' ∧
      (parts settings location source stack (done ++ [text])).stack =
        (part settings location source stack' text).stack := by
  induction done generalizing stack out with
  | nil =>
    obtain ⟨first, others, hfirst, -, -⟩ := (parts_cons_eq_ok_iff ..).mp h
    refine ⟨stack, first, hfirst, ?_⟩
    rw [List.nil_append, parts_cons_stack settings location source hfirst, parts_nil]
  | cons text' done ih =>
    obtain ⟨first, others, hfirst, hothers, -⟩ := (parts_cons_eq_ok_iff ..).mp h
    obtain ⟨stack', out', hpart, hstack⟩ := ih hothers
    refine ⟨stack', out', hpart, ?_⟩
    rw [List.cons_append, parts_cons_stack settings location source hfirst]
    exact hstack

/-- Behind such a line the blocks are shut. -/
theorem OpensDisabled.shut {filename : String} {p q : Progress} {number : Nat}
    (h : OpensDisabled settings source)
    (hq : unitLine settings filename p number source = .ok q) : q.stack.Shut := by
  obtain ⟨done, text, condition, hstatements, htokens, hcondition⟩ := h.header
  rcases unitLine_cases hq with ⟨hd, -⟩ | ⟨-, statements, verdicts, hr, -, rfl⟩
  · rw [h.code] at hd
    cases hd
  · have hline : line settings ⟨filename, number⟩ p.stack source =
        parts settings ⟨filename, number⟩ source p.stack (done ++ [text]) := by
      rw [line, hstatements]
    rw [hline] at hr
    obtain ⟨stack', out', hpart, hstack⟩ := parts_concat_stack hr
    simp only [Progress.record, hline, hstack, part_opens_disabled htokens hcondition hpart]
    exact BlockStack.shut_of_disabled _ _

end Opener

/-- **A body that is switched off leaves no trace.**  If a unit compiles, then it compiles with the
body of a false conditional blanked out, whatever the body holds and whatever stands around the
conditional, and to the same statements, header and symbols.  All that may be missing is warnings
about the body. -/
theorem unit_disabled {settings : Settings} {filename source blanked opener : String}
    {seed : Symbols} {output : Output} {before body blanks after : List String}
    (hsource : sourceLines source = before ++ opener :: (body ++ after))
    (hblanked : sourceLines blanked = before ++ opener :: (blanks ++ after))
    (hopener : OpensDisabled settings opener) (hbody : Balanced settings body)
    (hblanks : ∀ line ∈ blanks, IsBlank line) (hlength : blanks.length = body.length)
    (h : unit settings filename source seed = .ok output) :
    ∃ output', unit settings filename blanked seed = .ok output' ∧
      output'.statements = output.statements ∧ output'.header = output.header ∧
        output'.symbols = output.symbols ∧
          output'.diagnostics.Sublist output.diagnostics := by
  obtain ⟨r, hr, hstack, rfl⟩ := unit_eq_ok_iff.mp h
  rw [hsource, unitLines_append] at hr
  obtain ⟨p, hbefore, hr⟩ := Except.bind_eq_ok_iff.mp hr
  obtain ⟨q, hq, hr⟩ := Except.bind_eq_ok_iff.mp hr
  rw [unitLines_append] at hr
  obtain ⟨q', hq', hr⟩ := Except.bind_eq_ok_iff.mp hr
  -- the body is compiled above a shut floor, and ends at the floor
  have hshut := hopener.shut hq
  obtain ⟨stack, added, ⟨inner, hinner, hfloor⟩, hbodyEnd⟩ :=
    unitLines_above hshut ⟨[], rfl, rfl⟩ hbody hq'
  rw [List.length_eq_zero_iff.mp hinner, List.nil_append] at hfloor
  subst hfloor hbodyEnd
  -- so what follows it goes on from the same state but for its warnings
  obtain ⟨rest, hrest, hafter⟩ := unitLines_diagnostics hr
  have hrun : unitLines settings filename { symbols := seed } 1 (sourceLines blanked) =
      .ok { r with diagnostics := q.diagnostics ++ rest } := by
    rw [hblanked, unitLines_append]
    refine Except.bind_eq_ok_iff.mpr ⟨p, hbefore, Except.bind_eq_ok_iff.mpr ⟨q, hq, ?_⟩⟩
    rw [unitLines_append, unitLines_of_blank hblanks, hlength]
    exact hafter q.diagnostics
  refine ⟨_, unit_eq_ok_iff.mpr ⟨_, hrun, hstack, rfl⟩, rfl, rfl, rfl, ?_⟩
  simp only [hrest, List.append_assoc]
  exact (List.Sublist.refl _).append (List.sublist_append_right _ _)

/-- A body with a label and a jump to it, in a scope in a conditional in a loop; the false
conditional stands inside another loop. -/
theorem unit_disabled_nested :
    let body := ["&for i in 1 2 \x7b", "&if true \x7b", "namespace m \x7b", "l$i:",
      "jump l$i always", "\x7d", "\x7d", "\x7d"]
    let before := ["#author me", "&for k of a b \x7b"]
    let after := ["\x7d", "print $k", "\x7d"]
    let source := "\n".intercalate (before ++ "&if false \x7b" :: (body ++ after))
    let blanks := ["", "", " ", "", "", "", "", ""]
    let blanked := "\n".intercalate (before ++ "&if false \x7b" :: (blanks ++ after))
    ∃ output output', unit {} "main.mlogx" source {} = .ok output ∧
      unit {} "main.mlogx" blanked {} = .ok output' ∧
        output.statements.map Statement.text = ["print a", "print b"] ∧
          output'.statements = output.statements ∧ output'.header = output.header ∧
            output'.symbols = output.symbols := by
  intro body before after source blanks blanked
  have hopener : OpensDisabled {} "&if false \x7b" :=
    ⟨by decide, [], "&if false \x7b", "false", rfl, rfl, by decide⟩
  have hsource : sourceLines source = before ++ "&if false \x7b" :: (body ++ after) := by
    decide +kernel
  have hblanked : sourceLines blanked = before ++ "&if false \x7b" :: (blanks ++ after) := by
    decide +kernel
  have hbody : Balanced {} body := by decide +kernel
  have hblanks : ∀ line ∈ blanks, IsBlank line := by decide
  have htexts : (unit {} "main.mlogx" source {}).toOption.map
      (fun output => output.statements.map Statement.text) = some ["print a", "print b"] := by
    decide +kernel
  cases h : unit {} "main.mlogx" source {} with
  | error e =>
    rw [h] at htexts
    cases htexts
  | ok output =>
    rw [h] at htexts
    obtain ⟨output', h', hstatements, hheader, hsymbols, -⟩ :=
      unit_disabled hsource hblanked hopener hbody hblanks rfl h
    exact ⟨output, output', rfl, h', Option.some.inj htexts, hstatements, hheader, hsymbols⟩

end Compile

end Mlog
