import Mlog.Proofs.Compile.Renaming
import Mlog.Proofs.Instruction.Writes

/-!
# The types of variables under new names

A line writes variables at types.  With the open scopes in front it writes the same variables under
their new names, but not always at the same types (`definitions_qualifyLine_iff`).

The declared types do not look at the operands, and what an assigned value looks like does not
change when it gets a new name.  The sensors go by the spelling of the property.  They read a name
without an `@` as the property of that name, although such an operand is a variable that holds the
property; under its new name it is no known property any more, and what it senses counts as a
number.
-/
set_option autoImplicit false

namespace Mlog

/-! ## The property that an operand names -/

/-- The part of an operand that the sensors take for the property: what follows its last dot. -/
def sensedName (token : String) : List Char :=
  ((Text.cutLast '.' token.toList).map Prod.snd).getD token.toList

/-- The type of what is sensed, by the operand for the property. -/
def operandType (token : String) : Ty :=
  sensedType (sensedProperty (String.ofList (sensedName token)))

theorem sensedName_of_not_mem {token : String} (h : '.' ∉ token.toList) :
    sensedName token = token.toList := by
  rw [sensedName, Text.cutLast_eq_none h]
  rfl

theorem sensedName_of_append {token : String} {before after : List Char}
    (h : token.toList = before ++ '.' :: after) (hdot : '.' ∉ after) :
    sensedName token = after := by
  rw [sensedName, h, Text.cutLast_append _ hdot]
  rfl

/-- Behind an underscore the property is found as before, or it takes the underscore along. -/
theorem sensedName_scoped {token name : String} {w : List Char}
    (h : token.toList = w ++ '_' :: name.toList) :
    '.' ∈ name.toList ∧ sensedName token = sensedName name ∨
      '.' ∉ name.toList ∧ '_' ∈ sensedName token := by
  by_cases hname : '.' ∈ name.toList
  · obtain ⟨before, after, hsplit, hdot⟩ := Text.exists_last hname
    have htoken : token.toList = (w ++ '_' :: before) ++ '.' :: after := by
      rw [h, hsplit, List.append_assoc, List.cons_append]
    exact Or.inl ⟨hname, by rw [sensedName_of_append htoken hdot, sensedName_of_append hsplit hdot]⟩
  · refine Or.inr ⟨hname, ?_⟩
    by_cases hw : '.' ∈ w
    · obtain ⟨before, after, rfl, hdot⟩ := Text.exists_last hw
      rw [List.append_assoc, List.cons_append] at h
      rw [sensedName_of_append h (by simp [hdot, hname])]
      simp
    · rw [sensedName_of_not_mem (by rw [h]; simp [hw, hname]), h]
      simp

/-! ## Names of properties -/

/-- The properties whose values are no numbers, without their `@`. -/
def typedProperties : List String := [
  "type", "payloadType", "config", "firstItem", "controller", "team", "name", "dead", "shooting",
  "boosting", "mining", "enabled"]

theorem sensedType_eq_number_iff {property : String} (h : property.toList.head? = some '@') :
    sensedType property = .number ↔ property ∉ typedProperties.map ("@" ++ ·) := by
  have htyped : ∀ typed ∈ typedProperties.map ("@" ++ ·), sensedType typed ≠ .number := by decide
  constructor
  · intro hnumber hmem
    exact htyped property hmem hnumber
  · intro hmem
    simp only [typedProperties, List.map_cons, List.map_nil, String.reduceAppend, List.mem_cons,
      List.not_mem_nil, or_false, not_or] at hmem
    simp [sensedType, h, hmem]

theorem head_sensedProperty (property : String) :
    (sensedProperty property).toList.head? = some '@' := by
  unfold sensedProperty
  split
  · next h => simpa using h
  · simp

/-- A name with an underscore in it is no known property. -/
theorem sensedType_of_underscore {cs : List Char} (h : '_' ∈ cs) :
    sensedType (sensedProperty (String.ofList cs)) = .number := by
  have hplain : ∀ property ∈ typedProperties.map ("@" ++ ·), '_' ∉ property.toList := by decide
  rw [sensedType_eq_number_iff (head_sensedProperty _)]
  intro hmem
  refine hplain _ hmem ?_
  unfold sensedProperty
  split
  · simpa using h
  · simp [h]

/-- A variable without a dot senses a number, unless it has the name of a property that is none. -/
theorem operandType_of_isVariable {token : String}
    (hv : Overload.isVariable .senseable token = true) (hdot : '.' ∉ token.toList)
    (hnot : token ∉ typedProperties) : operandType token = .number := by
  rw [operandType, sensedName_of_not_mem hdot, String.ofList_toList,
    sensedType_eq_number_iff (head_sensedProperty _)]
  intro hmem
  by_cases hat : token.toList.head? = some '@'
  · -- a property with its `@` is known by itself, and no variable
    have hknown : ∀ property ∈ typedProperties.map ("@" ++ ·),
        property ∈ Vocabulary.properties := by decide
    have hrec : Ty.senseable.recognises token = false := (Compile.of_isVariable hv).1
    rw [sensedProperty, if_pos (by simpa using hat)] at hmem
    simp [Ty.recognises, hknown token hmem] at hrec
  · rw [sensedProperty, if_neg (by simpa using hat)] at hmem
    obtain ⟨name, hname, heq⟩ := List.mem_map.mp hmem
    obtain rfl : name = token := by simpa using heq
    exact hnot hname

/-- A variable that stands for a property is of another type under its new name exactly if it has
the name of a property that is no number. -/
theorem operandType_qualify_eq_iff {stack : BlockStack} (hscopes : stack.scopes ≠ [])
    {token : String} (hv : Overload.isVariable .senseable token = true) :
    operandType (stack.qualify token) = operandType token ↔ token ∉ typedProperties := by
  have hlisted : ∀ name ∈ typedProperties, Compile.takesScope name = true ∧ '.' ∉ name.toList ∧
      operandType name ≠ .number := by decide
  cases htakes : Compile.takesScope token with
  | false =>
    have hnot : token ∉ typedProperties := fun hmem => by
      have := (hlisted token hmem).1
      rw [htakes] at this
      cases this
    simp [BlockStack.qualify_of_not_takesScope htakes, hnot]
  | true =>
    have hlist : (stack.qualify token).toList =
        ('_' :: stack.scopesText.toList) ++ '_' :: token.toList := by
      rw [BlockStack.qualify_of_takesScope htakes hscopes, BlockStack.toList_scoped]
      rfl
    rcases sensedName_scoped hlist with ⟨hdot, hsame⟩ | ⟨hdot, hunderscore⟩
    · have hnot : token ∉ typedProperties := fun hmem => (hlisted token hmem).2.1 hdot
      simp [operandType, hsame, hnot]
    · have hnumber : operandType (stack.qualify token) = .number :=
        sensedType_of_underscore hunderscore
      rw [hnumber]
      constructor
      · intro heq hmem
        exact (hlisted token hmem).2.2 heq.symm
      · intro hnot
        exact (operandType_of_isVariable hv hdot hnot).symm

/-! ## What a line writes under new names -/

namespace Overload

/-- Whether a line writes what it senses, and names the property by a variable that is spelled like
a property that is no number. -/
def mistakesProperty (o : Overload) (line : List String) : Bool :=
  match o.writes with
  | .sensed output property =>
    (o.operands line)[output]?.any (· != "_") &&
      (o.operands line)[property]?.any typedProperties.contains
  | _ => false

/-- Whether the operands that decide what a base overload writes stand where they have to: what is
written at a written parameter, the assigned value not at a label, the property at a property. -/
def writesInPlace (o : Overload) : Bool :=
  match o.writes with
  | .declared => true
  | .assigned target value =>
    (o.paramAt? target).any Param.isWritten &&
      (o.paramAt? value).any fun p => p.ty? != some .jumpAddress
  | .sensed output property =>
    (o.paramAt? output).any Param.isWritten &&
      (o.paramAt? property).any fun p => p.ty? == some .senseable

end Overload

namespace Compile

theorem writesInPlace_of_mem : ∀ c ∈ Instruction.table, c.isBase = true →
    c.writesInPlace = true := by
  decide +kernel

/-- What is written has a type that a guess can give, or any type. -/
theorem ty_of_isWritten : ∀ c ∈ Instruction.table, ∀ p ∈ c.params, p.isWritten = true →
    p.ty?.any (fun ty => ty.guessable || ty.isWildcard) = true := by
  decide +kernel

section Operand

variable {stack : BlockStack} {c : Overload} {p : Param} {token : String}

/-- What looks like a variable may be written, and nothing else. -/
theorem takes_of_isWritten (hw : p.isWritten = true) (token : String) :
    p.takes token = (Ty.guess token == .variable) := by
  obtain ⟨name, form, optional⟩ := p
  cases form with
  | keyword => cases hw
  | value ty written variadic =>
    obtain rfl : written = true := hw
    rfl

/-- A written operand is a variable, and gets its new name. -/
theorem qualifyOperand_of_isWritten (hmem : c ∈ Instruction.table) (hp : p ∈ c.params)
    (hw : p.isWritten = true) (ht : p.takes token = true) :
    qualifyOperand stack (some p) token = stack.qualify token := by
  obtain ⟨ty, hty, hkind⟩ := (Option.any_eq_true ..).mp (ty_of_isWritten c hmem p hp hw)
  have hlooks : Ty.guess token = .variable := by
    rw [takes_of_isWritten hw] at ht
    exact beq_iff_eq.mp ht
  have hrec : ty.recognises token = false := by
    rcases Bool.or_eq_true_iff.mp hkind with hguess | hwild
    · cases hr : ty.recognises token with
      | false => rfl
      | true => exact absurd hlooks (Ty.guess_ne_variable hguess hr)
    · cases ty with
      | any | valid => rfl
      | _ => cases hwild
  have hjump : ty ≠ .jumpAddress := by
    rintro rfl
    cases hkind
  rw [qualifyOperand_value hty hjump]
  simp [Overload.isVariable, hrec, hlooks]

/-- Away from labels an operand looks as before under its new name. -/
theorem guess_qualifyOperand (hjump : p.ty? ≠ some .jumpAddress) :
    Ty.guess (qualifyOperand stack (some p) token) = Ty.guess token := by
  rcases qualifyOperand_cases stack p token with hq | ⟨⟨rest, hrest⟩, -, hty | ⟨ty, -, hv⟩⟩
  · rw [hq]
  · exact absurd hty hjump
  · rw [Ty.guess_underscore hrest, (of_isVariable hv).2]

end Operand

section Line

variable {stack : BlockStack} {c : Overload} {m : String} {ops : List String}

/-- The declared types are written under the new names. -/
theorem definitions_qualifyLine_declared (hmem : c ∈ Instruction.table) (hb : c.block = none)
    (hw : c.writes = .declared) (ht : c.takes (m :: ops) = true) :
    c.definitions (qualifyLine stack c (m :: ops)) =
      (c.definitions (m :: ops)).map fun d => (stack.qualify d.1, d.2) := by
  simp only [Overload.definitions, hw]
  rw [bind_qualifyLine hb, List.filterMap_map, List.map_filterMap]
  apply List.filterMap_congr
  rintro ⟨token, p⟩ hbound
  obtain ⟨i, htoken, hpi⟩ := Overload.mem_bind_iff.mp hbound
  have htakes := (Overload.takes_iff.mp ht).2 i token p htoken hpi
  cases hwritten : p.isWritten with
  | false => simp [hwritten]
  | true =>
    have hnew : qualifyOperand stack (some p) token = stack.qualify token :=
      qualifyOperand_of_isWritten hmem (Overload.paramAt?_mem hpi) hwritten htakes
    have hdiscard : (stack.qualify token == "_") = (token == "_") := by
      rw [Bool.eq_iff_iff, beq_iff_eq, beq_iff_eq, stack.qualify_eq_discard_iff]
    simp only [Function.comp_apply, hnew, hwritten, Bool.true_and, bne, hdiscard]
    cases token == "_" <;> cases p.ty? <;> rfl

/-- A written operand of a line gets its new name. -/
theorem written_operand (hmem : c ∈ Instruction.table) (hb : c.block = none)
    (ht : c.takes (m :: ops) = true) {i : Nat} {output : String}
    (hw : (c.paramAt? i).any Param.isWritten = true) (hout : ops[i]? = some output) :
    qualifyOperand stack (c.paramAt? i) output = stack.qualify output := by
  obtain ⟨p, hp, hwritten⟩ := (Option.any_eq_true ..).mp hw
  have htakes := (Overload.takes_iff.mp ht).2 i output p
    (by rw [Overload.operands_eq_tail hb]; exact hout) hp
  rw [hp]
  exact qualifyOperand_of_isWritten hmem (Overload.paramAt?_mem hp) hwritten htakes

/-- An assigned value gives its type to the variable under its new name. -/
theorem definitions_qualifyLine_assigned (hmem : c ∈ Instruction.table) (hb : c.block = none)
    {target value : Nat} (hw : c.writes = .assigned target value)
    (hplace : c.writesInPlace = true) (ht : c.takes (m :: ops) = true) :
    c.definitions (qualifyLine stack c (m :: ops)) =
      (c.definitions (m :: ops)).map fun d => (stack.qualify d.1, d.2) := by
  simp only [Overload.writesInPlace, hw, Bool.and_eq_true] at hplace
  obtain ⟨p, hp, hjump⟩ := (Option.any_eq_true ..).mp hplace.2
  simp only [Overload.definitions, hw, Overload.operands_eq_tail hb, getElem?_qualifyLine hb,
    List.tail_cons]
  cases hout : ops[target]? with
  | none => rfl
  | some output =>
    cases ops[value]? with
    | none => rfl
    | some assigned =>
      simp only [Option.map_some, written_operand hmem hb ht hplace.1 hout, hp,
        guess_qualifyOperand (by simpa using hjump)]
      by_cases hdiscard : output = "_"
      · simp [hdiscard, (stack.qualify_eq_discard_iff "_").mpr rfl]
      · have hkept := mt (stack.qualify_eq_discard_iff output).mp hdiscard
        simp [hdiscard, hkept]

/-- What a sensor writes, and what it writes under new names. -/
theorem definitions_sensed (stack : BlockStack) (hmem : c ∈ Instruction.table)
    (hb : c.block = none) {output property : Nat} (hw : c.writes = .sensed output property)
    (hplace : c.writesInPlace = true) (ht : c.takes (m :: ops) = true) :
    c.definitions (m :: ops) = [] ∧ c.definitions (qualifyLine stack c (m :: ops)) = [] ∧
        c.mistakesProperty (m :: ops) = false ∨
      ∃ name token, c.definitions (m :: ops) = [(name, operandType token)] ∧
        c.definitions (qualifyLine stack c (m :: ops)) =
          [(stack.qualify name, operandType (qualifyOperand stack (c.paramAt? property) token))] ∧
        c.mistakesProperty (m :: ops) = typedProperties.contains token := by
  simp only [Overload.writesInPlace, hw, Bool.and_eq_true] at hplace
  simp only [Overload.definitions, Overload.mistakesProperty, hw, Overload.operands_eq_tail hb,
    getElem?_qualifyLine hb, List.tail_cons]
  cases hout : ops[output]? with
  | none => exact Or.inl ⟨rfl, rfl, rfl⟩
  | some name =>
    cases ops[property]? with
    | none => exact Or.inl ⟨rfl, rfl, by simp⟩
    | some token =>
      simp only [Option.map_some, written_operand hmem hb ht hplace.1 hout]
      by_cases hdiscard : name = "_"
      · exact Or.inl (by simp [hdiscard, (stack.qualify_eq_discard_iff "_").mpr rfl])
      · have hkept := mt (stack.qualify_eq_discard_iff name).mp hdiscard
        refine Or.inr ⟨name, token, ?_, ?_, by simp [hdiscard]⟩
        · rw [if_neg (by simpa using hdiscard)]
          rfl
        · rw [if_neg (by simpa using hkept)]
          rfl

/-- The operand for a property keeps its type under its new name, unless it is taken for one. -/
theorem operandType_qualifyOperand_eq_iff (stack : BlockStack) {p : Param}
    (hty : p.ty? = some .senseable) (token : String) :
    operandType (qualifyOperand stack (some p) token) = operandType token ↔
      stack.scopes = [] ∨ token ∉ typedProperties := by
  have hvariables : ∀ name ∈ typedProperties, Overload.isVariable .senseable name = true := by
    decide +kernel
  rw [qualifyOperand_value hty (by decide)]
  cases hv : Overload.isVariable .senseable token with
  | false =>
    have hnot : token ∉ typedProperties := fun hname => by
      have := hvariables token hname
      rw [hv] at this
      cases this
    simp [hnot]
  | true =>
    by_cases hscopes : stack.scopes = []
    · simp [BlockStack.qualify, hscopes]
    · rw [if_pos rfl, operandType_qualify_eq_iff hscopes hv]
      simp [hscopes]

/-- A line writes the same under new names, or it is a sensor that was given a property. -/
theorem definitions_qualifyLine_cases (stack : BlockStack) (hmem : c ∈ Instruction.table)
    (hbase : c.isBase = true) (ht : c.takes (m :: ops) = true) :
    c.definitions (qualifyLine stack c (m :: ops)) =
          (c.definitions (m :: ops)).map (fun d => (stack.qualify d.1, d.2)) ∧
        c.mistakesProperty (m :: ops) = false ∨
      ∃ p name token, p.ty? = some .senseable ∧
        c.definitions (m :: ops) = [(name, operandType token)] ∧
        c.definitions (qualifyLine stack c (m :: ops)) =
          [(stack.qualify name, operandType (qualifyOperand stack (some p) token))] ∧
        c.mistakesProperty (m :: ops) = typedProperties.contains token := by
  have hb := (Overload.isBase_iff.mp hbase).2
  have hplace := writesInPlace_of_mem c hmem hbase
  cases hw : c.writes with
  | declared =>
    exact Or.inl ⟨definitions_qualifyLine_declared hmem hb hw ht,
      by simp [Overload.mistakesProperty, hw]⟩
  | assigned target value =>
    exact Or.inl ⟨definitions_qualifyLine_assigned hmem hb hw hplace ht,
      by simp [Overload.mistakesProperty, hw]⟩
  | sensed output property =>
    rcases definitions_sensed stack hmem hb hw hplace ht with
      ⟨hold, hnew, hmistakes⟩ | ⟨name, token, hold, hnew, hmistakes⟩
    · exact Or.inl ⟨by rw [hold, hnew]; rfl, hmistakes⟩
    · simp only [Overload.writesInPlace, hw, Bool.and_eq_true] at hplace
      obtain ⟨p, hp, hty⟩ := (Option.any_eq_true ..).mp hplace.2
      rw [hp] at hnew
      exact Or.inr ⟨p, name, token, by simpa using hty, hold, hnew, hmistakes⟩

end Line

/-- **A line writes the same variables under their new names**, in the same order, and at the same
types exactly if there are no scopes or the line is no sensor that is given a variable for the
property and takes it for the property of that name. -/
theorem definitions_qualifyLine_iff (stack : BlockStack) {line : List String} {c : Overload}
    (hr : Instruction.resolve line = .ok c) (hx : c.expansion = .asWritten) (hb : c.block = none) :
    (c.definitions (qualifyLine stack c line)).map Prod.fst =
        (c.definitions line).map (fun d => stack.qualify d.1) ∧
      (c.definitions (qualifyLine stack c line) =
          (c.definitions line).map (fun d => (stack.qualify d.1, d.2)) ↔
        stack.scopes = [] ∨ c.mistakesProperty line = false) := by
  obtain ⟨hmem, hh, ht⟩ := Instruction.of_resolve hr
  obtain ⟨ops, rfl⟩ := List.head?_eq_some_iff.mp hh
  rcases definitions_qualifyLine_cases stack hmem (Overload.isBase_iff.mpr ⟨hx, hb⟩) ht
    with ⟨hsame, hmistakes⟩ | ⟨p, name, token, hty, hold, hnew, hmistakes⟩
  · exact ⟨by rw [hsame, List.map_map]; rfl, fun _ => Or.inr hmistakes, fun _ => hsame⟩
  · rw [hold, hnew, hmistakes]
    exact ⟨rfl, by simpa using operandType_qualifyOperand_eq_iff stack hty token⟩

/-- A property with its `@` gives its type to the variable under its new name. -/
theorem definitions_qualifyLine_iff_team :
    ∃ c, Instruction.resolve ["sensor", "x", "cell1", "@team"] = .ok c ∧
      c.definitions (qualifyLine [.scope "b" ⟨"main.mlogx", 2⟩, .scope "a" ⟨"main.mlogx", 1⟩] c
        ["sensor", "x", "cell1", "@team"]) = [("_a_b_x", .team)] := by
  let stack : BlockStack := [.scope "b" ⟨"main.mlogx", 2⟩, .scope "a" ⟨"main.mlogx", 1⟩]
  let line : List String := ["sensor", "x", "cell1", "@team"]
  have hfound : ∃ c ∈ (Instruction.overloads "sensor").find? (·.takes line),
      c.expansion = .asWritten ∧ c.block = none ∧ c.mistakesProperty line = false ∧
        c.definitions line = [("x", .team)] := by
    decide +kernel
  obtain ⟨c, hc, hx, hb, hmistakes, hold⟩ := hfound
  have hr : Instruction.resolve line = .ok c := Instruction.resolve_eq_ok_iff.mpr hc
  have hnew := (definitions_qualifyLine_iff stack hr hx hb).2.mpr (Or.inr hmistakes)
  have hname : stack.qualify "x" = "_a_b_x" := by decide +kernel
  rw [hold, List.map_singleton, hname] at hnew
  exact ⟨c, hr, hnew⟩

/-- The variable `type` is taken for the property `@type`, until it gets a new name. -/
theorem definitions_variable_type :
    ∃ c, Instruction.resolve ["sensor", "x", "cell1", "type"] = .ok c ∧
      c.expansion = .asWritten ∧ c.block = none ∧
        c.definitions ["sensor", "x", "cell1", "type"] = [("x", .contentType)] ∧
          qualifyLine [.scope "n" ⟨"main.mlogx", 1⟩] c ["sensor", "x", "cell1", "type"] =
              ["sensor", "_n_x", "cell1", "_n_type"] ∧
            c.definitions ["sensor", "_n_x", "cell1", "_n_type"] = [("_n_x", .number)] := by
  have hfound : ∃ c ∈ (Instruction.overloads "sensor").find?
        (·.takes ["sensor", "x", "cell1", "type"]),
      c.expansion = .asWritten ∧ c.block = none ∧
        c.definitions ["sensor", "x", "cell1", "type"] = [("x", .contentType)] ∧
          qualifyLine [.scope "n" ⟨"main.mlogx", 1⟩] c ["sensor", "x", "cell1", "type"] =
              ["sensor", "_n_x", "cell1", "_n_type"] ∧
            c.definitions ["sensor", "_n_x", "cell1", "_n_type"] = [("_n_x", .number)] := by
    decide +kernel
  obtain ⟨c, hc, hrest⟩ := hfound
  exact ⟨c, Instruction.resolve_eq_ok_iff.mpr hc, hrest⟩

end Compile

end Mlog
