import Mlog.Proofs.Compile.Invariant
import Mlog.Proofs.Instruction.Shorthand
import Mlog.Proofs.Reference.Scan

/-!
# The output is in the base dialect

The compiler asks for base instructions only once, when a line is expanded.  After that the line
gets scopes put in front of its variables, waits in loops and has their variables bound, and in the
end it must only resolve to something.  It cannot have become an extended instruction on the way:
neither scopes nor bound variables touch its mnemonic or the words its overload asks for, so it
stays in the frame of the base overload that it had (`Settled`), and `isBase_of_framed` says that
the frame decides.
-/
set_option autoImplicit false

namespace Mlog

/-! ## Frames under rewriting -/

namespace Overload

/-- A line stays in its frame when operands are replaced and the words are not. -/
theorem Framed.replace {o : Overload} {m : String} {ops ops' : List String}
    (h : o.Framed (m :: ops)) (hb : o.block = none) (hlen : ops'.length = ops.length)
    (hkeep : ∀ (i : Nat) (token : String) (p : Param) (ws : List String),
      ops[i]? = some token → o.paramAt? i = some p → p.words? = some ws → token ∈ ws →
        ops'[i]? = some token) :
    o.Framed (m :: ops') := by
  have hops : ∀ line, o.operands (m :: line) = line := fun line => operands_eq_tail hb _
  have hwords := h.words
  rw [hops] at hwords
  refine ⟨h.head, ?_, ?_⟩
  · rw [hops, hlen, ← hops ops]
    exact h.count
  · intro i token p ws htoken hp hws
    rw [hops] at htoken
    have hlt : i < ops.length := hlen ▸ (List.getElem?_eq_some_iff.mp htoken).1
    have hold := List.getElem?_eq_getElem hlt
    -- what stands at the position of a word is the word that stood there
    have hin := hwords i _ p ws hold hp hws
    have hsame := hkeep i _ p ws hold hp hws hin
    rw [htoken] at hsame
    obtain rfl := Option.some.inj hsame
    exact hin

end Overload

namespace Instruction

/-- No mnemonic and no keyword of the table holds a reference, and no mnemonic ends like a
label. -/
theorem plain_of_mem : ∀ o ∈ table, '$' ∉ o.mnemonic.toList ∧
    o.mnemonic.toList.getLast? ≠ some ':' ∧
      ∀ p ∈ o.params, p.form = .keyword → '$' ∉ p.name.toList := by
  decide +kernel

/-- Nor does any word of a parameter. -/
theorem dollar_not_mem_of_words {o : Overload} {p : Param} {ws : List String} {w : String}
    (ho : o ∈ table) (hp : p ∈ o.params) (hws : p.words? = some ws) (hw : w ∈ ws) :
    '$' ∉ w.toList := by
  have hlists : ∀ vs ∈ Ty.all.filterMap Ty.words?, ∀ v ∈ vs, '$' ∉ v.toList := by
    decide
  cases hf : p.form with
  | keyword =>
    simp only [Param.words?, hf, Option.some.injEq] at hws
    subst hws
    obtain rfl := List.mem_singleton.mp hw
    exact (plain_of_mem o ho).2.2 p hp hf
  | value ty written variadic =>
    cases written with
    | true => simp [Param.words?, hf] at hws
    | false =>
      simp only [Param.words?, hf] at hws
      exact hlists ws (List.mem_filterMap.mpr ⟨ty, Ty.mem_all ty, hws⟩) w hw

/-- What does not begin with a block keyword is no block construct. -/
theorem block_of_resolve {m : String} {rest : List String} {o : Overload}
    (hk : isBlockKeyword m = false) (h : resolve (m :: rest) = .ok o) : o.block = none := by
  obtain ⟨hmem, hh, -⟩ := of_resolve h
  have hin := mem_overloads_iff.mpr ⟨hmem, (Option.some.inj hh).symm⟩
  simpa using List.any_eq_false.mp hk o hin

/-- An instruction is among those that match its line. -/
theorem matching_ne_nil {tokens : List String} {o : Overload} (h : resolve tokens = .ok o)
    (hb : o.block = none) : matching tokens ≠ [] := by
  obtain ⟨hmem, hh, ht⟩ := of_resolve h
  obtain ⟨rest, rfl⟩ := List.head?_eq_some_iff.mp hh
  have hin : o ∈ matching (o.mnemonic :: rest) :=
    List.mem_filter.mpr ⟨mem_overloads_iff.mpr ⟨hmem, rfl⟩, by simp [hb, ht]⟩
  exact List.ne_nil_of_mem hin

/-- Binding a variable keeps a line in its frame. -/
theorem framed_bind {o : Overload} {tokens : List String} (hmem : o ∈ table)
    (hb : o.block = none) (h : o.Framed tokens) (name value : String) :
    o.Framed (tokens.map (Reference.bind name value)) := by
  obtain ⟨ops, rfl⟩ := List.head?_eq_some_iff.mp h.head
  rw [List.map_cons, Reference.bind_of_not_mem (plain_of_mem o hmem).1]
  refine h.replace hb (List.length_map _) fun i token p ws htoken hp hws hin => ?_
  rw [List.getElem?_map, htoken, Option.map_some,
    Reference.bind_of_not_mem
      (dollar_not_mem_of_words hmem (Overload.paramAt?_mem hp) hws hin)]

end Instruction

namespace Compile

/-- A word is no variable, so no scope is put in front of it. -/
theorem qualifyOperand_of_words {stack : BlockStack} {p : Param} {ws : List String}
    {token : String} (hws : p.words? = some ws) (hin : token ∈ ws) :
    qualifyOperand stack (some p) token = token := by
  obtain ⟨name, form, optional⟩ := p
  cases form with
  | keyword => rfl
  | value ty written variadic =>
    cases written with
    | true => exact absurd hws (by simp [Param.words?])
    | false =>
      obtain ⟨-, -, -, -, -, hr⟩ := @Ty.recognises_iff_of_words ty ws hws
      have hjump : ty ≠ .jumpAddress := by
        rintro rfl
        exact absurd hws (by simp [Param.words?, Ty.words?])
      have hrec := (hr token).mpr hin
      simp [qualifyOperand, Param.ty?, hjump, Overload.isVariable, hrec]

/-- The scopes go in front of operands, each by its own parameter. -/
theorem qualifyLine_cons {o : Overload} (hb : o.block = none) (stack : BlockStack) (m : String)
    (ops : List String) :
    qualifyLine stack o (m :: ops) =
      m :: ops.zipIdx.map fun ti => qualifyOperand stack (o.paramAt? ti.2) ti.1 := by
  simp [qualifyLine, hb]

/-- Putting scopes in front of variables keeps a line in its frame. -/
theorem framed_qualifyLine {stack : BlockStack} {o : Overload} {line : List String}
    (hb : o.isBase = true) (h : o.Framed line) : o.Framed (qualifyLine stack o line) := by
  obtain ⟨ops, rfl⟩ := List.head?_eq_some_iff.mp h.head
  have hblock : o.block = none := (Overload.isBase_iff.mp hb).2
  rw [qualifyLine_cons hblock]
  refine h.replace hblock (by simp) fun i token p ws htoken hp hws hin => ?_
  simp only [List.getElem?_map, List.getElem?_zipIdx, htoken, Option.map_some, Nat.zero_add, hp]
  rw [qualifyOperand_of_words hws hin]

/-- An instruction is no label, since no mnemonic ends in a colon. -/
theorem labelOf?_of_resolve {tokens : List String} {o : Overload}
    (h : Instruction.resolve tokens = .ok o) : labelOf? tokens = none := by
  obtain ⟨hmem, hh, -⟩ := Instruction.of_resolve h
  obtain ⟨ops, rfl⟩ := List.head?_eq_some_iff.mp hh
  cases ops with
  | cons op ops => rfl
  | nil =>
    have hlast := (Instruction.plain_of_mem o hmem).2.1
    rw [← List.head?_reverse] at hlast
    show labelName? o.mnemonic = none
    unfold labelName?
    split
    · next rest hrest => exact absurd (by rw [hrest]; rfl) hlast
    · rfl

/-! ## Settled statements -/

/-- A statement that is in the base dialect for good: a label, whatever its name, or a line in the
frame of a base overload. -/
def Settled (s : Statement) : Prop :=
  (∃ stem, s.tokens = [stem ++ ":"]) ∨
    ∃ o ∈ Instruction.table, o.isBase = true ∧ o.Framed s.tokens

/-- No reference takes in a colon, so a label keeps it. -/
theorem bind_append_colon (name value stem : String) :
    Reference.bind name value (stem ++ ":") = Reference.bind name value stem ++ ":" := by
  apply String.toList_injective
  have hcolon : Reference.Breaks [':'] := Reference.breaks_cons (by decide) []
  have hplain : '$' ∉ [':'] := by decide
  have htoList : ∀ t : String, (t ++ ":").toList = t.toList ++ [':'] := by
    intro t
    simp
  rw [htoList, Reference.bind, Reference.toList_fill, htoList, Reference.fillChars_append hcolon,
    Reference.fillChars_of_not_mem hplain, Reference.bind, Reference.toList_fill]

theorem settled_bind (s : Statement) (name value : String) (h : Settled s) :
    Settled (s.bind name value) := by
  rcases h with ⟨stem, hs⟩ | ⟨o, hmem, hb, hf⟩
  · exact Or.inl ⟨Reference.bind name value stem, by simp [Statement.bind, hs, bind_append_colon]⟩
  · have hblock := (Overload.isBase_iff.mp hb).2
    exact Or.inr ⟨o, hmem, hb, Instruction.framed_bind hmem hblock hf name value⟩

/-- What an instruction expands to is no block construct.  Its own mnemonic is none, and the others
are the table's. -/
theorem isBase_of_mem_expand {first : String} {rest line : List String} {o base : Overload}
    (hk : Instruction.isBlockKeyword first = false)
    (ho : Instruction.resolve (first :: rest) = .ok o) (hline : line ∈ o.expand (first :: rest))
    (hbase : Instruction.resolve line = .ok base) (hx : base.expansion = .asWritten) :
    base.isBase = true := by
  obtain ⟨hmem, hh, ht⟩ := Instruction.of_resolve ho
  have hfirst : first = o.mnemonic := Option.some.inj hh
  have same : ∀ {c : Overload}, Instruction.resolve line = .ok c ∧ c.isBase = true →
      base.isBase = true := by
    rintro c ⟨hc, hcb⟩
    rw [hbase] at hc
    obtain rfl := Except.ok.inj hc
    exact hcb
  cases hox : o.expansion with
  | asWritten =>
    obtain rfl : line = first :: rest := by
      simpa [Overload.expand, hox, Expansion.apply] using hline
    exact Overload.isBase_iff.mpr ⟨hx, Instruction.block_of_resolve hk hbase⟩
  | template lines =>
    obtain ⟨c, hc⟩ := Instruction.resolve_template hmem hox ht line hline
    exact same hc
  | eachOperand =>
    obtain ⟨c, hc⟩ := Instruction.resolve_eachOperand hmem hox hfirst line hline
    exact same hc
  | shorthand =>
    obtain ⟨output, thing, property, heq, -, -, hname⟩ := Instruction.shorthand_cases ho hox
    obtain ⟨rfl, rfl⟩ := List.cons.inj heq
    rw [Instruction.expand_shorthand hox (Shape.not_mem_of_isSensedName hname)] at hline
    obtain rfl := List.mem_singleton.mp hline
    exact Overload.isBase_iff.mpr ⟨hx, Instruction.block_of_resolve hk hbase⟩

theorem settled_lowered (stack : BlockStack) (first : String) (rest line : List String)
    (provenance : Provenance) (o base : Overload)
    (hk : Instruction.isBlockKeyword first = false)
    (ho : Instruction.resolve (first :: rest) = .ok o) (hline : line ∈ o.expand (first :: rest))
    (hbase : Instruction.resolve line = .ok base) (hx : base.expansion = .asWritten) :
    Settled ⟨qualifyLine stack base line, provenance⟩ := by
  have hb := isBase_of_mem_expand hk ho hline hbase hx
  obtain ⟨hmem, hh, ht⟩ := Instruction.of_resolve hbase
  exact Or.inr ⟨base, hmem, hb, framed_qualifyLine hb (.of_takes hh ht)⟩

/-- Every statement is settled when it is made, and stays so. -/
theorem settled_invariant : StatementInvariant Settled where
  bind := settled_bind
  label stack name _ := Or.inl ⟨stack.qualify name, rfl⟩
  lowered := settled_lowered

/-- A settled statement that means something means a base instruction.  A label means nothing,
since no mnemonic ends in a colon. -/
theorem isBase_of_settled {s : Statement} {o : Overload} (hs : Settled s)
    (ho : Instruction.resolve s.tokens = .ok o) : o.isBase = true := by
  rcases hs with ⟨stem, htokens⟩ | ⟨c, hmem, hb, hf⟩
  · obtain ⟨hmem, hh, -⟩ := Instruction.of_resolve ho
    have hm : stem ++ ":" = o.mnemonic := by simpa [htokens] using hh
    obtain ⟨-, hcolon, -⟩ := Instruction.plain_of_mem o hmem
    rw [← hm] at hcolon
    exact absurd (by simp) hcolon
  · exact Instruction.isBase_of_framed hmem hb hf ho

/-- **The output of a unit is in the base dialect**: every statement is a label, or it means a base
instruction, and then the symbols of some overload are recorded for it. -/
theorem unit_base_dialect (settings : Settings) (filename source : String) (seed : Symbols)
    (output : Output) (h : unit settings filename source seed = .ok output) :
    ∀ s ∈ output.statements, s.label?.isSome = true ∨
      (∃ o, Instruction.resolve s.tokens = .ok o ∧ o.expansion = .asWritten ∧ o.block = none) ∧
        Instruction.matching s.tokens ≠ [] := by
  intro s hs
  obtain ⟨hsettled, hlabel | ⟨o, ho⟩⟩ := settled_invariant.output h s hs
  · exact Or.inl hlabel
  · obtain ⟨hx, hblock⟩ := Overload.isBase_iff.mp (isBase_of_settled hsettled ho)
    exact Or.inr ⟨⟨o, ho, hx, hblock⟩, Instruction.matching_ne_nil ho hblock⟩

/-- A loop around an extended instruction and a label, inside a scope. -/
theorem unit_base_dialect_loop :
    ∃ output, unit {} "main.mlogx"
        "namespace n \x7b\n&for i of 0 x \x7b\nprint $i y\nl$i:\n\x7d\n\x7d" {} = .ok output ∧
      output.statements.map Statement.text =
        ["print 0", "print _n_y", "_n_l0:", "print x", "print _n_y", "_n_lx:"] ∧
      ∀ s ∈ output.statements, s.label?.isSome = true ∨
        (∃ o, Instruction.resolve s.tokens = .ok o ∧ o.expansion = .asWritten ∧ o.block = none) ∧
          Instruction.matching s.tokens ≠ [] := by
  have htexts : (unit {} "main.mlogx"
      "namespace n \x7b\n&for i of 0 x \x7b\nprint $i y\nl$i:\n\x7d\n\x7d" {}).toOption.map
        (·.statements.map Statement.text) =
      some ["print 0", "print _n_y", "_n_l0:", "print x", "print _n_y", "_n_lx:"] := by
    decide +kernel
  cases h : unit {} "main.mlogx"
      "namespace n \x7b\n&for i of 0 x \x7b\nprint $i y\nl$i:\n\x7d\n\x7d" {} with
  | error e =>
    rw [h] at htexts
    exact absurd htexts (by simp [Except.toOption])
  | ok output =>
    rw [h] at htexts
    exact ⟨output, rfl, Option.some.inj htexts, unit_base_dialect _ _ _ _ output h⟩

end Compile

end Mlog
