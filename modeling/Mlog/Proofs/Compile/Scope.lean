import Mlog.Proofs.Compile.Entry
import Mlog.Proofs.Instruction.Rebind

/-!
# Scopes before and after a variable is bound

Inside a loop the compiler decides which operands of a line are variables or labels, and get the
open scopes in front, while the variable of the loop still stands in the line as a reference.
`scopeMarks` is that decision for every operand of every line that a statement expands to.  It is
all that matters: the lines of a statement with the variable bound are those of the bound statement
exactly when both are marked alike (`stated_bind_iff`).
-/
set_option autoImplicit false

namespace Mlog.Compile

/-! ## Marks -/

/-- Whether scopes go in front of a name, which is not so for reserved names and for references. -/
def takesScope (name : String) : Bool :=
  name.toList.head? != some '_' && name.toList.head? != some '$'

/-- Whether scopes go in front of an operand: it is a variable or a label, and its name takes
them. -/
def isScoped (param : Option Param) (token : String) : Bool :=
  match param.bind Param.ty? with
  | none => false
  | some ty =>
    (if ty == .jumpAddress then !token.toList.all Char.isDigit else Overload.isVariable ty token) &&
      takesScope token

/-- Which operands of a base instruction have scopes put in front. -/
def lineMarks (line : List String) : List Bool :=
  match Instruction.resolve line with
  | .ok base =>
    (line.drop 1).zipIdx.map fun (token, position) => isScoped (base.paramAt? position) token
  | .error _ => []

/-- Which operands of the lines of a statement have scopes put in front; for a label, whether it
has. -/
def scopeMarks (tokens : List String) : List (List Bool) :=
  match labelOf? tokens with
  | some label => [[takesScope label]]
  | none =>
    match Instruction.resolve tokens with
    | .ok o => (o.expand tokens).map lineMarks
    | .error _ => []

/-- The lines that a statement becomes inside open blocks. -/
def stated (stack : BlockStack) (tokens : List String) : List (List String) :=
  match labelOf? tokens with
  | some label => [[stack.qualify label ++ ":"]]
  | none =>
    match Instruction.resolve tokens with
    | .ok o => (o.expand tokens).map (scopedLine stack)
    | .error _ => []

/-- A statement that is a label, or an instruction that expands to base instructions. -/
def Compiles (tokens : List String) : Prop :=
  (∃ label, labelOf? tokens = some label) ∨
    ∃ o, Instruction.resolve tokens = .ok o ∧ o.block = none ∧
      ∀ line ∈ o.expand tokens, ∃ base, Instruction.resolve line = .ok base ∧ base.isBase = true

namespace Entry

variable {e : Entry} {options : Options} {out : List Statement}

theorem tokens_statements (h : (e.compile options).result = .ok out) :
    e.statements.map Statement.tokens = stated e.stack e.tokens := by
  unfold stated
  cases hl : labelOf? e.tokens with
  | some label =>
    rw [statements, hl]
    rfl
  | none =>
    cases hr : Instruction.resolve e.tokens with
    | error r =>
      rw [statements, hl, hr]
      rfl
    | ok o =>
      rw [lower_eq (lower_of_compile h hl hr), List.map_map]
      rfl

theorem compiles (h : (e.compile options).result = .ok out) (hf : e.refusal? = none) :
    Compiles e.tokens := by
  cases hl : labelOf? e.tokens with
  | some label => exact Or.inl ⟨label, hl⟩
  | none =>
    cases hr : Instruction.resolve e.tokens with
    | error r =>
      rw [refusal?, hl, hr] at hf
      cases hf
    | ok o =>
      refine Or.inr ⟨o, hr, Instruction.block_of_resolve e.noKeyword hr, fun line hline => ?_⟩
      obtain ⟨base, hbase, hx⟩ := resolve_of_lower (lower_of_compile h hl hr) line hline
      exact ⟨base, hbase, isBase_of_mem_expand e.noKeyword hr hline hbase hx⟩

end Entry

/-! ## Putting scopes in front -/

def putScope (scope : String) (mark : Bool) (name : String) : String :=
  if mark then "_" ++ scope ++ "_" ++ name else name

theorem putScope_inj {scope name : String} {mark mark' : Bool} :
    putScope scope mark name = putScope scope mark' name ↔ mark = mark' := by
  -- a name with something in front is longer
  have hne : "_" ++ scope ++ "_" ++ name ≠ name := by
    intro h
    have hlength := congrArg String.length h
    simp only [String.length_append] at hlength
    have hone : "_".length = 1 := rfl
    omega
  cases mark <;> cases mark' <;> simp [putScope, hne, hne.symm]

section Scoped

variable {stack : BlockStack} {scope : String}

theorem qualify_eq (hs : stack.scopes = [scope]) (hplain : '$' ∉ scope.toList) (name : String) :
    stack.qualify name = putScope scope (takesScope name) name := by
  have hdelimit : Reference.delimit scope = scope := by
    apply String.toList_injective
    rw [Reference.delimit, Reference.toList_fill, Reference.fillChars_of_not_mem hplain]
  have hjoin : "_".intercalate [scope] = scope := rfl
  unfold BlockStack.qualify putScope takesScope
  rw [hs]
  simp only [List.isEmpty_cons, List.map_singleton, hdelimit, hjoin]
  by_cases hu : name.toList.head? = some '_' <;> by_cases hd : name.toList.head? = some '$' <;>
    simp [hu, hd]

theorem qualifyOperand_eq (hs : stack.scopes = [scope]) (hplain : '$' ∉ scope.toList)
    (param : Option Param) (token : String) :
    qualifyOperand stack param token = putScope scope (isScoped param token) token := by
  unfold qualifyOperand isScoped
  cases param.bind Param.ty? with
  | none => rfl
  | some ty =>
    have hcases : ∀ named : Bool, (if named then stack.qualify token else token) =
        putScope scope (named && takesScope token) token := by
      intro named
      cases named with
      | true => exact qualify_eq hs hplain token
      | false => rfl
    exact hcases _

theorem length_lineMarks {m : String} {ops : List String} {base : Overload}
    (h : Instruction.resolve (m :: ops) = .ok base) :
    (lineMarks (m :: ops)).length = ops.length := by
  simp [lineMarks, h]

theorem scopedLine_eq (hs : stack.scopes = [scope]) (hplain : '$' ∉ scope.toList) {m : String}
    {ops : List String} {base : Overload} (h : Instruction.resolve (m :: ops) = .ok base)
    (hb : base.isBase = true) :
    scopedLine stack (m :: ops) =
      m :: List.zipWith (putScope scope) (lineMarks (m :: ops)) ops := by
  have hblock := (Overload.isBase_iff.mp hb).2
  simp only [scopedLine, lineMarks, h, qualifyLine, hblock, Option.isSome_none,
    Bool.false_eq_true, if_false, List.take_succ_cons, List.take_zero, List.drop_succ_cons,
    List.drop_zero, List.singleton_append, qualifyOperand_eq hs hplain]
  congr 1
  apply List.ext_getElem
  · simp
  · intro i hi hi'
    simp

end Scoped

/-! ## Binding -/

section Bind

variable {name value scope : String}

theorem bind_putScope (hplain : '$' ∉ scope.toList) (mark : Bool) (token : String) :
    Reference.bind name value (putScope scope mark token) =
      putScope scope mark (Reference.bind name value token) := by
  cases mark with
  | false => rfl
  | true =>
    have hfront : '$' ∉ ("_" ++ scope ++ "_").toList := by simp [hplain]
    apply String.toList_injective
    rw [putScope, putScope, if_pos rfl, if_pos rfl, Reference.bind, Reference.toList_fill,
      String.toList_append (s := "_" ++ scope ++ "_"),
      String.toList_append (s := "_" ++ scope ++ "_"),
      Reference.fillChars_append_of_not_mem hfront, Reference.bind, Reference.toList_fill]

theorem zipWith_putScope_inj {marks marks' : List Bool} {tokens : List String}
    (hl : marks.length = tokens.length) (hl' : marks'.length = tokens.length) :
    List.zipWith (putScope scope) marks tokens = List.zipWith (putScope scope) marks' tokens ↔
      marks = marks' := by
  induction tokens generalizing marks marks' with
  | nil =>
    obtain rfl := List.length_eq_zero_iff.mp hl
    obtain rfl := List.length_eq_zero_iff.mp hl'
    exact iff_of_true rfl rfl
  | cons token tokens ih =>
    obtain ⟨mark, marks, rfl⟩ := List.exists_cons_of_length_eq_add_one hl
    obtain ⟨mark', marks', rfl⟩ := List.exists_cons_of_length_eq_add_one hl'
    rw [List.zipWith_cons_cons, List.zipWith_cons_cons, List.cons.injEq, List.cons.injEq,
      putScope_inj, ih (Nat.succ.inj hl) (Nat.succ.inj hl')]

variable {stack stack' : BlockStack} {tokens : List String}

/-- A base instruction with scopes put in front and then bound is the bound instruction with scopes
put in front exactly when the same operands are marked. -/
theorem scopedLine_bind_iff (hs : stack.scopes = [scope]) (hs' : stack'.scopes = [scope])
    (hplain : '$' ∉ scope.toList) {line : List String} {base base' : Overload}
    (h : Instruction.resolve line = .ok base) (hb : base.isBase = true)
    (h' : Instruction.resolve (line.map (Reference.bind name value)) = .ok base')
    (hb' : base'.isBase = true) :
    (scopedLine stack line).map (Reference.bind name value) =
        scopedLine stack' (line.map (Reference.bind name value)) ↔
      lineMarks (line.map (Reference.bind name value)) = lineMarks line := by
  obtain ⟨hmem, hh, -⟩ := Instruction.of_resolve h
  obtain ⟨ops, rfl⟩ := List.head?_eq_some_iff.mp hh
  have hm := Reference.bind_of_not_mem (Instruction.plain_of_mem base hmem).1 name value
  rw [List.map_cons, hm] at h' ⊢
  rw [scopedLine_eq hs hplain h hb, scopedLine_eq hs' hplain h' hb', List.map_cons, hm,
    List.map_zipWith]
  simp only [bind_putScope hplain, List.cons.injEq, true_and]
  have hmap : List.zipWith (fun mark token => putScope scope mark (Reference.bind name value token))
      (lineMarks (base.mnemonic :: ops)) ops =
      List.zipWith (putScope scope) (lineMarks (base.mnemonic :: ops))
        (ops.map (Reference.bind name value)) := by
    rw [List.zipWith_map_right]
  rw [hmap, zipWith_putScope_inj (by simpa using length_lineMarks h) (length_lineMarks h')]
  exact eq_comm

theorem eq_of_labelName? {token label : String} (h : labelName? token = some label) :
    token = label ++ ":" := by
  unfold labelName? at h
  split at h
  · next rest hrest =>
    split at h
    · apply String.toList_injective
      rw [← Option.some.inj h]
      simpa using congrArg List.reverse hrest
    · cases h
  · cases h

theorem tokens_of_labelOf? {label : String} (h : labelOf? tokens = some label) :
    tokens = [label ++ ":"] := by
  unfold labelOf? at h
  split at h
  · rw [eq_of_labelName? h]
  · cases h

theorem resolve_colon_ne {stem : String} {o : Overload} :
    Instruction.resolve [stem ++ ":"] ≠ .ok o := by
  intro h
  obtain ⟨hmem, hh, -⟩ := Instruction.of_resolve h
  have hm : stem ++ ":" = o.mnemonic := Option.some.inj hh
  have hcolon := (Instruction.plain_of_mem o hmem).2.1
  rw [← hm] at hcolon
  exact hcolon (by simp)

/-- A bound label is a label, if it compiles. -/
theorem labelOf?_bind {label : String} (h : labelOf? tokens = some label)
    (h' : Compiles (tokens.map (Reference.bind name value))) :
    labelOf? (tokens.map (Reference.bind name value)) =
      some (Reference.bind name value label) := by
  rw [tokens_of_labelOf? h, List.map_singleton, bind_append_colon] at h' ⊢
  rcases h' with ⟨label', hl'⟩ | ⟨o, ho, -⟩
  · rw [hl']
    have hcolon := List.singleton_inj.mp (tokens_of_labelOf? hl')
    simpa [← String.toList_inj] using hcolon.symm
  · exact absurd ho resolve_colon_ne

/-- An instruction does not become a label. -/
theorem labelOf?_bind_of_resolve {o : Overload} (h : Instruction.resolve tokens = .ok o) :
    labelOf? (tokens.map (Reference.bind name value)) = none := by
  obtain ⟨hmem, hh, -⟩ := Instruction.of_resolve h
  obtain ⟨ops, rfl⟩ := List.head?_eq_some_iff.mp hh
  have hm := Reference.bind_of_not_mem (Instruction.plain_of_mem o hmem).1 name value
  rw [List.map_cons, hm]
  cases ops with
  | nil => exact labelOf?_of_resolve h
  | cons op ops => rfl

/-- **Binding and putting scopes in front commute exactly when the marks stay**, and give as many
lines in any case. -/
theorem stated_bind_iff (hs : stack.scopes = [scope]) (hs' : stack'.scopes = [scope])
    (hplain : '$' ∉ scope.toList) (h : Compiles tokens)
    (h' : Compiles (tokens.map (Reference.bind name value))) :
    ((stated stack tokens).map (·.map (Reference.bind name value)) =
        stated stack' (tokens.map (Reference.bind name value)) ↔
      scopeMarks (tokens.map (Reference.bind name value)) = scopeMarks tokens) ∧
    (stated stack' (tokens.map (Reference.bind name value))).length =
      (stated stack tokens).length := by
  rcases h with ⟨label, hl⟩ | ⟨o, hr, hblock, hlines⟩
  · have hl' := labelOf?_bind hl h'
    have hcolon : ∀ a b : String, a ++ ":" = b ++ ":" ↔ a = b := by
      intro a b
      simp [← String.toList_inj]
    simp only [stated, scopeMarks, hl, hl', List.map_singleton, bind_append_colon,
      qualify_eq hs hplain, qualify_eq hs' hplain, bind_putScope hplain, List.cons.injEq, and_true,
      hcolon, putScope_inj, List.length_singleton]
    exact eq_comm
  · have hl := labelOf?_of_resolve hr
    have hl' : labelOf? (tokens.map (Reference.bind name value)) = none :=
      labelOf?_bind_of_resolve hr
    rcases h' with ⟨label', hlabel'⟩ | ⟨o', hr', hblock', hlines'⟩
    · rw [hl'] at hlabel'
      cases hlabel'
    · have hexpand := Instruction.expand_bind name value hr hblock hr'
      simp only [stated, scopeMarks, hl, hl', hr, hr', hexpand, List.map_map, List.length_map,
        and_true, List.map_inj_left, Function.comp_apply]
      -- bound or not, the statement expands to the same lines, so they are compared one by one
      refine forall₂_congr fun line hline => ?_
      obtain ⟨base, hbase, hb⟩ := hlines line hline
      obtain ⟨base', hbase', hb'⟩ := hlines' (line.map (Reference.bind name value))
        (by rw [hexpand]; exact List.mem_map_of_mem hline)
      exact scopedLine_bind_iff hs hs' hplain hbase hb hbase' hb'

end Bind

end Mlog.Compile
