import Mlog.Proofs.Compile.BaseDialect
import Mlog.Proofs.Compile.Conservation

/-!
# Expansions in one piece

The lines that an extended instruction expands to travel together, and at the end each of them is
resolved on its own.  So a copy of an instruction could come out in part.  Most expansions are a
single line, and the lines that `print` expands to always mean something.  Only `call` is different:
its first line stores the return address and is never refused, and its second line jumps, to a
target that loops and scopes may have spoiled.  `unit_whole_iff` says that this is the only way in
which an instruction comes apart.
-/
set_option autoImplicit false

namespace Mlog

namespace Reference

theorem bindEach_of_not_mem {text : String} (h : '$' ∉ text.toList)
    (values : List (String × String)) : bindEach values text = text := by
  induction values with
  | nil => rfl
  | cons nv values ih =>
    show bindEach values (bind nv.1 nv.2 text) = text
    rw [bind_of_not_mem h, ih]

end Reference

namespace Group

/-- The statements of a group that go to the output. -/
def kept (group : Group) : Group := group.filter (·.refusal?.isNone)

theorem kept_eq_self {group : Group} (h : ∀ s ∈ group, s.refusal? = none) : group.kept = group := by
  rw [kept, List.filter_eq_self]
  intro s hs
  rw [h s hs]
  rfl

theorem kept_singleton (s : Statement) : kept [s] = [s] ∨ kept [s] = [] := by
  cases h : s.refusal?.isNone with
  | true => exact Or.inl (List.filter_cons_of_pos h)
  | false => exact Or.inr (List.filter_cons_of_neg (by simp [h]))

end Group

namespace Statement

/-- A statement that is no label is kept exactly when it means something. -/
theorem refusal?_eq_none_iff {s : Statement} (h : s.label? = none) :
    s.refusal? = none ↔ ∃ o, Instruction.resolve s.tokens = .ok o := by
  unfold refusal?
  cases Instruction.resolve s.tokens <;> simp [h]

end Statement

namespace Instruction

/-- Only `call` has a template of more than one line. -/
theorem template_single {o : Overload} {lines : List (List Slot)} (hmem : o ∈ table)
    (hcall : o.mnemonic ≠ "call") (hx : o.expansion = .template lines) : lines.length = 1 := by
  obtain ⟨hne, hshort, -⟩ := template_of_mem o hmem
  rw [hx] at hne hshort
  have hpos : 0 < lines.length := List.length_pos_iff.mpr fun hnil => hne (hnil ▸ rfl)
  exact Nat.le_antisymm (hshort hcall) hpos

/-- The line that stores the return address of a call. -/
def storeLine : List String := ["op", "add", "_stack1", "@counter", "1"]

/-- The line that jumps to a target. -/
def jumpLine (target : String) : List String := ["jump", target, "always", "0", "0"]

/-- It is a base instruction, the operation with three operands. -/
theorem resolve_storeLine : ∃ o, resolve storeLine = .ok o ∧ o.isPlain = true ∧
    o.params = [.val "operation" .operandTriple, .out "output" .number, .val "a" .number,
      .val "b" .number] := by
  have hrow : (resolve storeLine).toOption.map (fun o => (o.isPlain, o.params)) =
      some (true, [.val "operation" .operandTriple, .out "output" .number, .val "a" .number,
        .val "b" .number]) := by
    decide
  cases h : resolve storeLine with
  | error r =>
    rw [h] at hrow
    cases hrow
  | ok o =>
    rw [h] at hrow
    obtain ⟨hplain, hparams⟩ := Prod.mk.inj (Option.some.inj hrow)
    exact ⟨o, rfl, hplain, hparams⟩

/-- What `call` takes, and what it expands to. -/
theorem expand_call {o : Overload} {tokens : List String} (h : resolve tokens = .ok o)
    (hcall : o.mnemonic = "call") :
    ∃ target, tokens = ["call", target] ∧ o.expand tokens = [storeLine, jumpLine target] := by
  have htable : ∀ o ∈ overloads "call", o.isPlain = true ∧ o.params.length = 1 ∧
      o.expansion = .template [[.word "op", .word "add", .word "_stack1", .word "@counter",
        .word "1"], [.word "jump", .operand 1, .word "always", .word "0", .word "0"]] := by
    decide
  obtain ⟨hmem, hh, ht⟩ := of_resolve h
  obtain ⟨ops, rfl⟩ := List.head?_eq_some_iff.mp hh
  obtain ⟨hplain, hparams, hx⟩ := htable o (mem_overloads_iff.mpr ⟨hmem, hcall⟩)
  obtain ⟨hlength, -⟩ := (Overload.takes_iff_of_isPlain hplain _ _).mp ht
  obtain ⟨target, rfl⟩ := List.length_eq_one_iff.mp (hlength.trans hparams)
  refine ⟨target, by rw [hcall], ?_⟩
  rw [Overload.expand, hx]
  rfl

def jumpTarget : Param := .val "target" .jumpAddress

/-- The two overloads of `jump`: one of them takes four operands. -/
theorem overloads_jump :
    (∀ o ∈ overloads "jump", o.block = none ∧ (o.takesCount 4 = true → o.isPlain = true ∧
      o.params = [jumpTarget, .val "condition" .operandTest, .val "a" .any, .val "b" .any])) ∧
    ∃ o ∈ overloads "jump", o.takesCount 4 = true := by
  decide

theorem takes_jumpLine {o : Overload} {target : String} (h : o.takes (jumpLine target) = true)
    (ho : o ∈ overloads "jump") : o.isPlain = true ∧
    o.params = [jumpTarget, .val "condition" .operandTest, .val "a" .any, .val "b" .any] := by
  obtain ⟨hblock, hfull⟩ := overloads_jump.1 o ho
  have hcount := (Overload.takes_iff.mp h).1
  exact hfull (by simpa [Overload.operands, hblock, jumpLine] using hcount)

/-- A jump means something exactly when its target could be one. -/
theorem resolve_jumpLine_iff {target : String} :
    (∃ o, resolve (jumpLine target) = .ok o) ↔ jumpTarget.takes target = true := by
  constructor
  · rintro ⟨o, h⟩
    obtain ⟨hmem, hh, ht⟩ := of_resolve h
    have ho : o ∈ overloads "jump" :=
      mem_overloads_iff.mpr ⟨hmem, (Option.some.inj hh).symm⟩
    obtain ⟨hplain, hparams⟩ := takes_jumpLine ht ho
    obtain ⟨-, htakes⟩ := (Overload.takes_iff_of_isPlain hplain _ _).mp ht
    exact htakes (jumpTarget, target) (by rw [hparams]; exact List.mem_cons_self)
  · intro htarget
    obtain ⟨o, ho, hcount⟩ := overloads_jump.2
    obtain ⟨hmem, hm⟩ := mem_overloads_iff.mp ho
    obtain ⟨hplain, hparams⟩ := (overloads_jump.1 o ho).2 hcount
    refine exists_resolve hmem (by rw [hm]; rfl) ?_
    have hwords : (Param.val "condition" .operandTest).takes "always" = true ∧
        (Param.val "a" .any).takes "0" = true ∧ (Param.val "b" .any).takes "0" = true := by
      decide
    refine (Overload.takes_iff_of_isPlain hplain _ _).mpr ⟨by rw [hparams]; rfl, ?_⟩
    rw [hparams]
    simpa using ⟨htarget, hwords⟩

end Instruction

namespace Compile

open Instruction

/-! ## What the lines become -/

section Scoped

variable (stack : BlockStack)

theorem qualifyLine_of_isPlain {o : Overload} (h : o.isPlain = true) {m : String}
    {ops : List String} (hlen : ops.length = o.params.length) :
    qualifyLine stack o (m :: ops) =
      m :: List.zipWith (fun p token => qualifyOperand stack (some p) token) o.params ops := by
  rw [qualifyLine_cons (Overload.block_of_isPlain h)]
  congr 1
  apply List.ext_getElem
  · simp [hlen]
  · intro i hi hi'
    have hparams : i < o.params.length := by simpa [hlen] using hi
    simp [Overload.paramAt?, List.getElem?_eq_getElem hparams]

/-- An operand that is read and is no variable has no scope in front. -/
theorem qualifyOperand_of_not_variable {name token : String} {ty : Ty} (hjump : ty ≠ .jumpAddress)
    (hv : Overload.isVariable ty token = false) :
    qualifyOperand stack (some (.val name ty)) token = token := by
  simp [qualifyOperand, Param.val, Param.ty?, hjump, hv]

/-- No scope is put in front of anything in the line that stores the return address. -/
theorem scopedLine_storeLine : scopedLine stack storeLine = storeLine := by
  have hstored : qualifyOperand stack (some (.out "output" .number)) "_stack1" = "_stack1" := by
    simp [qualifyOperand, Param.out, Param.ty?, BlockStack.qualify]
  have hread : Overload.isVariable .operandTriple "add" = false ∧
      Overload.isVariable .number "@counter" = false ∧
        Overload.isVariable .number "1" = false := by
    decide
  obtain ⟨o, h, hplain, hparams⟩ := resolve_storeLine
  rw [scopedLine, h]
  show qualifyLine stack o storeLine = storeLine
  rw [storeLine, qualifyLine_of_isPlain stack hplain (by rw [hparams]; rfl), hparams]
  simp only [List.zipWith_cons_cons, List.zipWith_nil_left]
  rw [hstored, qualifyOperand_of_not_variable stack (by decide) hread.1,
    qualifyOperand_of_not_variable stack (by decide) hread.2.1,
    qualifyOperand_of_not_variable stack (by decide) hread.2.2]

theorem scopedLine_jumpLine {target : String} {o : Overload}
    (h : resolve (jumpLine target) = .ok o) :
    scopedLine stack (jumpLine target) =
      jumpLine (qualifyOperand stack (some jumpTarget) target) := by
  obtain ⟨hmem, hh, ht⟩ := of_resolve h
  obtain ⟨hplain, hparams⟩ :=
    takes_jumpLine ht (mem_overloads_iff.mpr ⟨hmem, (Option.some.inj hh).symm⟩)
  have hread : Overload.isVariable .operandTest "always" = false ∧
      Overload.isVariable .any "0" = false := by
    decide
  rw [scopedLine, h]
  show qualifyLine stack o (jumpLine target) = _
  rw [jumpLine, qualifyLine_of_isPlain stack hplain (by rw [hparams]; rfl), hparams]
  simp only [List.zipWith_cons_cons, List.zipWith_nil_left]
  rw [qualifyOperand_of_not_variable stack (by decide) hread.1,
    qualifyOperand_of_not_variable stack (by decide) hread.2,
    qualifyOperand_of_not_variable stack (by decide) hread.2, jumpLine]

end Scoped

namespace Entry

/-- The entry is short for a template, or for one line per operand. -/
def IsExtended (e : Entry) : Prop :=
  ∃ o, resolve e.tokens = .ok o ∧
    (o.expansion = .eachOperand ∨ ∃ lines, o.expansion = .template lines)

/-- The entry is a call whose target is none any more, once the values of the loops are bound in
it. -/
def IsSevered (e : Entry) (values : List (String × String)) : Prop :=
  ∃ target, e.tokens = ["call", target] ∧
    jumpTarget.takes
      (Reference.bindEach values (qualifyOperand e.stack (some jumpTarget) target)) = false

/-- The copy of what the entry becomes in one iteration of the loops around it. -/
def copy (e : Entry) (values : List (String × String)) : Group :=
  e.statements.map (Statement.bindEach values)

variable {e : Entry} {options : Options} {out : List Statement}

/-- The lines of a copy: those of the expansion, scoped and bound. -/
theorem tokens_copy {o : Overload} (h : (e.compile options).result = .ok out)
    (hr : resolve e.tokens = .ok o) (values : List (String × String)) :
    (e.copy values).map Statement.tokens =
      (o.expand e.tokens).map fun line =>
        (scopedLine e.stack line).map (Reference.bindEach values) := by
  rw [copy, lower_eq (lower_of_compile h (labelOf?_of_resolve hr) hr), List.map_map, List.map_map]
  refine List.map_congr_left fun line _ => ?_
  exact Statement.tokens_bindEach values _

/-- The lines of a call, copied: the return address is stored, and then there is a jump. -/
theorem copy_call {target : String} {o : Overload} (h : (e.compile options).result = .ok out)
    (hr : resolve e.tokens = .ok o) (ht : e.tokens = ["call", target])
    (values : List (String × String)) :
    ∃ store jump, e.copy values = [store, jump] ∧ store.tokens = storeLine ∧
      jump.tokens = jumpLine
        (Reference.bindEach values (qualifyOperand e.stack (some jumpTarget) target)) := by
  have hcall : o.mnemonic = "call" := by
    have hh := (of_resolve hr).2.1
    rw [ht] at hh
    exact (Option.some.inj hh).symm
  obtain ⟨target', ht', hexpand⟩ := expand_call hr hcall
  obtain rfl : target = target' := by simpa [ht] using ht'
  obtain ⟨base, hbase, -⟩ := resolve_of_lower (lower_of_compile h (labelOf?_of_resolve hr) hr)
    (jumpLine target) (by simp [hexpand])
  have hplain : ∀ token ∈ storeLine ++ ["jump", "always", "0"], '$' ∉ token.toList := by
    decide
  have hkeep : ∀ token ∈ storeLine ++ ["jump", "always", "0"],
      Reference.bindEach values token = token :=
    fun token htoken => Reference.bindEach_of_not_mem (hplain token htoken) values
  have htokens := tokens_copy h hr values
  rw [hexpand, List.map_cons, List.map_singleton, scopedLine_storeLine,
    scopedLine_jumpLine e.stack hbase] at htokens
  obtain ⟨store, rest, hcopy, hstore, hrest⟩ := List.map_eq_cons_iff.mp htokens
  obtain ⟨jump, rfl, hjump⟩ := List.map_eq_singleton_iff.mp hrest
  refine ⟨store, jump, hcopy, ?_, ?_⟩
  · rw [hstore]
    exact List.map_congr_left (fun token htoken => hkeep token (by simp [htoken])) |>.trans
      (List.map_id _)
  · rw [hjump]
    simp [jumpLine, hkeep]

/-- A call comes apart exactly when its target is spoiled: the line before the jump stays. -/
theorem kept_call {target : String} {o : Overload} (h : (e.compile options).result = .ok out)
    (hr : resolve e.tokens = .ok o) (ht : e.tokens = ["call", target])
    (values : List (String × String)) :
    (¬ e.IsSevered values → (e.copy values).kept = e.copy values) ∧
      (e.IsSevered values → ∃ store jump, e.copy values = [store, jump] ∧
        store.tokens = storeLine ∧ (e.copy values).kept = [store]) := by
  obtain ⟨store, jump, hcopy, hstore, hjump⟩ := copy_call h hr ht values
  have hstored : store.refusal? = none := by
    have hlabel : store.label? = none := by rw [Statement.label?, hstore]; rfl
    obtain ⟨o, ho, -⟩ := resolve_storeLine
    rw [Statement.refusal?_eq_none_iff hlabel, hstore]
    exact ⟨o, ho⟩
  -- the jump is the only line with something of the source in it
  have hjumped : jump.refusal? = none ↔ ¬ e.IsSevered values := by
    have hlabel : jump.label? = none := by rw [Statement.label?, hjump]; rfl
    rw [Statement.refusal?_eq_none_iff hlabel, hjump, resolve_jumpLine_iff]
    constructor
    · rintro htakes ⟨target', ht', hsevered⟩
      obtain rfl : target = target' := by simpa [ht] using ht'
      rw [htakes] at hsevered
      cases hsevered
    · intro hsevered
      by_contra htakes
      exact hsevered ⟨target, ht, by simpa using htakes⟩
  refine ⟨fun hs => ?_, fun hs => ⟨store, jump, hcopy, hstore, ?_⟩⟩
  · refine Group.kept_eq_self fun s hmem => ?_
    rw [hcopy] at hmem
    rcases List.mem_pair.mp hmem with rfl | rfl
    · exact hstored
    · exact hjumped.mpr hs
  · have hrefused : jump.refusal? ≠ none := fun hnone => hjumped.mp hnone hs
    rw [hcopy]
    simp [Group.kept, hstored, Option.isNone_iff_eq_none, hrefused]

theorem kept_eachOperand {o : Overload} (h : (e.compile options).result = .ok out)
    (hr : resolve e.tokens = .ok o) (hx : o.expansion = .eachOperand)
    (values : List (String × String)) : (e.copy values).kept = e.copy values := by
  obtain ⟨hmem, hh, -⟩ := of_resolve hr
  obtain ⟨ops, htokens⟩ := List.head?_eq_some_iff.mp hh
  have hmeans : ∀ value, ∃ c, resolve [o.mnemonic, value] = .ok c ∧ c.isBase = true := by
    intro value
    have hline : [o.mnemonic, value] ∈ o.expand (o.mnemonic :: [value]) := by
      simp [Overload.expand, hx, Expansion.apply]
    exact resolve_eachOperand hmem hx rfl _ hline
  refine Group.kept_eq_self fun s hs => ?_
  have hline := List.mem_map_of_mem (f := Statement.tokens) hs
  rw [tokens_copy h hr, htokens, Overload.expand, hx] at hline
  obtain ⟨line, hline, heq⟩ := List.mem_map.mp hline
  obtain ⟨value, -, rfl⟩ := List.mem_map.mp hline
  -- scopes and loops change the value, and leave the mnemonic alone
  obtain ⟨c, hc, hbase⟩ := hmeans value
  have htwo : s.tokens = [o.mnemonic,
      Reference.bindEach values (qualifyOperand e.stack (c.paramAt? 0) value)] := by
    rw [← heq, scopedLine, hc]
    simp [qualifyLine, (Overload.isBase_iff.mp hbase).2,
      Reference.bindEach_of_not_mem (plain_of_mem o hmem).1]
  have hlabel : s.label? = none := by rw [Statement.label?, htwo]
  rw [Statement.refusal?_eq_none_iff hlabel, htwo]
  obtain ⟨c', hc', -⟩ := hmeans
    (Reference.bindEach values (qualifyOperand e.stack (c.paramAt? 0) value))
  exact ⟨c', hc'⟩

theorem length_copy (values : List (String × String)) :
    (e.copy values).length = e.statements.length :=
  List.length_map _

/-- **An extended instruction comes out whole or not at all**, unless it is a call whose target is
spoiled. -/
theorem whole_iff (h : (e.compile options).result = .ok out) (hext : e.IsExtended)
    (values : List (String × String)) :
    ((e.copy values).kept = e.copy values ∨ (e.copy values).kept = []) ↔
      ¬ e.IsSevered values := by
  obtain ⟨o, hr, hx⟩ := hext
  by_cases hcall : o.mnemonic = "call"
  · obtain ⟨target, ht, -⟩ := expand_call hr hcall
    obtain ⟨hwhole, hsevered⟩ := kept_call h hr ht values
    refine ⟨fun hkept hs => ?_, fun hs => Or.inl (hwhole hs)⟩
    obtain ⟨store, jump, hcopy, -, hstore⟩ := hsevered hs
    rw [hstore, hcopy] at hkept
    simp at hkept
  · have hnot : ¬ e.IsSevered values := by
      rintro ⟨target, ht, -⟩
      have hh := (of_resolve hr).2.1
      rw [ht] at hh
      exact hcall (Option.some.inj hh).symm
    refine iff_of_true ?_ hnot
    rcases hx with hx | ⟨lines, hx⟩
    · exact Or.inl (kept_eachOperand h hr hx values)
    · have hone : (e.copy values).length = 1 := by
        rw [length_copy, lower_eq (lower_of_compile h (labelOf?_of_resolve hr) hr),
          List.length_map, Overload.expand, hx, Expansion.apply, List.length_map]
        exact template_single (of_resolve hr).1 hcall hx
      obtain ⟨s, hs⟩ := List.length_eq_one_iff.mp hone
      rw [hs]
      exact Group.kept_singleton s

theorem copies_eq (e : Entry) : e.copies = e.stack.iterations.map e.copy := by
  simp only [copies, BlockStack.spread, Group.spread, List.map_singleton]
  exact List.map_eq_flatMap.symm

end Entry

/-- **Extended instructions in the output.**  A unit that is not strict puts out the copies of its
entries group by group, each less the lines that are refused.  The copy of an extended instruction
is put out whole or not at all, exactly if it is no call whose target is spoiled; of such a call
only the line that stores the return address is left. -/
theorem unit_whole_iff {settings : Settings} {filename source : String} {seed : Symbols}
    {output : Output} (hlenient : settings.options.strict = false)
    (h : unit settings filename source seed = .ok output) :
    ∃ groups : List Group,
      groups.Perm ((entries settings filename source seed).flatMap fun e =>
        e.stack.iterations.map e.copy) ∧
      output.statements = groups.flatMap Group.kept ∧
      ∀ e ∈ entries settings filename source seed, e.IsExtended →
        ∀ values ∈ e.stack.iterations,
          (((e.copy values).kept = e.copy values ∨ (e.copy values).kept = []) ↔
            ¬ e.IsSevered values) ∧
          (e.IsSevered values → (e.copy values).kept.map Statement.tokens = [storeLine]) := by
  obtain ⟨groups, hreleased, hperm⟩ := unit_groups h
  refine ⟨groups, ?_, ?_, fun e he hext values _ => ?_⟩
  · rw [← funext Entry.copies_eq]
    exact hperm
  · rw [(unit_adds hlenient h).1, hreleased, List.filter_flatten, List.flatMap_def]
    rfl
  · obtain ⟨out, hout⟩ := compile_of_mem_entries h he
    refine ⟨Entry.whole_iff hout hext values, fun hs => ?_⟩
    obtain ⟨o, hr, -⟩ := hext
    obtain ⟨target, ht, -⟩ := id hs
    obtain ⟨store, jump, -, hstore, hkept⟩ := (Entry.kept_call hout hr ht values).2 hs
    rw [hkept, List.map_singleton, hstore]

/-- A loop around a call and a `print`, all of whose targets are labels. -/
theorem unit_whole_iff_labels :
    ∃ output, unit {} "main.mlogx" "&for i of f g \x7b\ncall $i\nprint $i x\n\x7d" {} =
        .ok output ∧
      output.statements.length = 8 ∧
      ∃ groups : List Group,
        groups.Perm ((entries {} "main.mlogx" "&for i of f g \x7b\ncall $i\nprint $i x\n\x7d"
          {}).flatMap fun e => e.stack.iterations.map e.copy) ∧
        output.statements = groups.flatMap Group.kept := by
  have hlength : (unit {} "main.mlogx"
      "&for i of f g \x7b\ncall $i\nprint $i x\n\x7d" {}).toOption.map
        (·.statements.length) = some 8 := by
    decide
  cases h : unit {} "main.mlogx" "&for i of f g \x7b\ncall $i\nprint $i x\n\x7d" {} with
  | error e =>
    rw [h] at hlength
    cases hlength
  | ok output =>
    rw [h] at hlength
    obtain ⟨groups, hperm, hout, -⟩ := unit_whole_iff rfl h
    exact ⟨output, rfl, Option.some.inj hlength, groups, hperm, hout⟩

/-- A loop whose value is no target leaves one of the two lines of a call in the output. -/
theorem unit_severed_call :
    (entries {} "main.mlogx" "&for i of \"a\" \x7b\ncall $i\n\x7d" {}).map (fun e =>
      (e.tokens, e.statements.map Statement.tokens)) =
    [(["call", "$i"], [["op", "add", "_stack1", "@counter", "1"],
      ["jump", "$i", "always", "0", "0"]])] ∧
    (unit {} "main.mlogx" "&for i of \"a\" \x7b\ncall $i\n\x7d" {}).toOption.map (fun output =>
      (output.statements.map Statement.tokens,
        output.diagnostics.filter Diagnostic.isSkip)) =
    some ([["op", "add", "_stack1", "@counter", "1"]],
      [⟨.skipped ⟨.wrongType "\"a\"" .jumpAddress .string, false⟩, some ⟨"main.mlogx", 2⟩⟩]) := by
  decide

end Compile

end Mlog
