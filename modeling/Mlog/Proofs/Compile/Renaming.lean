import Mlog.Proofs.Block.Legible

/-!
# Scopes only rename

Putting the open scopes in front of the variables and labels of a line renames them and changes
nothing else: the line means the same overload as before, reads the same variables and jumps to the
same labels under their new names, and all else in it stays (`qualifyLine_renames`).

A new name begins with an underscore.  Such a token looks like a variable and is no word of any
list, so a parameter takes it if it takes variables at all (`Param.takesVariables`).  That carries
over to the overloads that refused the line before, except at the two types that look at the shape
of a name, and there the table keeps the overloads apart.
-/
set_option autoImplicit false

namespace Mlog

/-! ## Tokens that begin with an underscore or a quote -/

namespace Ty

/-- Whether the tokens of a type are told by the shape of a name. -/
def isNameShaped : Ty → Bool
  | jumpAddress | senseShorthand => true
  | _ => false

/-- The lists of words that types and shapes are made of. -/
def vocabulary : List (List String) := [
  Vocabulary.teams, Vocabulary.items, Vocabulary.liquids, Vocabulary.units, Vocabulary.plainBlocks,
  Vocabulary.properties, Vocabulary.numericConstants, Vocabulary.buildingKinds, Vocabulary.tests,
  Vocabulary.binaryOperations, Vocabulary.unaryOperations, Vocabulary.targetClasses,
  Vocabulary.sortCriteria, Vocabulary.buildingGroups, Vocabulary.rules]

/-- No word begins with an underscore or a quote. -/
theorem front_of_mem_vocabulary :
    ∀ ws ∈ vocabulary, ∀ w ∈ ws, w.front?.any (fun c => c != '_' && c != '"') = true := by
  decide +kernel

section Front

variable {token : String} {c : Char} {rest : List Char}

theorem not_mem_vocabulary (hc : c = '_' ∨ c = '"') (h : token.toList = c :: rest)
    {ws : List String} (hws : ws ∈ vocabulary) : token ∉ ws := by
  intro hmem
  have hfront := front_of_mem_vocabulary ws hws token hmem
  rw [String.front?_eq, h] at hfront
  rcases hc with rfl | rfl <;> cases hfront

theorem not_isLink (hc : c = '_' ∨ c = '"') (rest : List Char) :
    Shape.isLink (c :: rest) = false := by
  have hkinds := front_of_mem_vocabulary Vocabulary.buildingKinds (by simp [vocabulary])
  rw [Shape.isLink, List.any_eq_false]
  intro kind hkind
  have hfront := hkinds kind hkind
  rw [String.front?_eq] at hfront
  cases hk : kind.toList with
  | nil =>
    rw [hk] at hfront
    cases hfront
  | cons d ds =>
    have hd : d ≠ '_' ∧ d ≠ '"' := by simpa [hk] using hfront
    have hne : (d == c) = false := by rcases hc with rfl | rfl <;> simp [hd]
    simp [List.isPrefixOf, hne]

/-- No other type recognises a token that begins with an underscore, nor one that begins with a
quote unless it is the type of strings. -/
theorem not_recognises_of_front {ty : Ty} (hc : c = '_' ∨ c = '"') (h : token.toList = c :: rest)
    (hty : ty.isNameShaped = false) (hstring : ty = .string → c = '_') :
    ty.recognises token = false := by
  have hword : ∀ ws ∈ vocabulary, ws.contains token = false := by
    intro ws hws
    simpa using not_mem_vocabulary hc h hws
  have hne : ∀ w : String, w.toList.head? ≠ some '_' ∧ w.toList.head? ≠ some '"' →
      (token == w) = false := by
    rintro w ⟨hunderscore, hquote⟩
    rw [beq_eq_false_iff_ne]
    rintro rfl
    rw [h] at hunderscore hquote
    rcases hc with rfl | rfl
    · exact hunderscore rfl
    · exact hquote rfl
  cases ty with
  | unit => exact hne "@unit" (by decide)
  | null => exact hne "null" (by decide)
  | boolean =>
    rw [recognises, hne "true" (by decide), hne "false" (by decide)]
    rfl
  | building =>
    rw [recognises, Shape.isBuilding, hne "@this" (by decide), h, not_isLink hc]
    rfl
  | blockType =>
    rw [recognises, Shape.isBlock, hword Vocabulary.plainBlocks (by simp [vocabulary]), h]
    rcases hc with rfl | rfl <;> rfl
  | number =>
    rw [recognises, Shape.isNumber, hword Vocabulary.numericConstants (by simp [vocabulary]), h]
    rcases hc with rfl | rfl <;> rfl
  | contentType =>
    rw [recognises, h]
    rcases hc with rfl | rfl <;> rfl
  | string =>
    rw [recognises, h, hstring rfl]
    rfl
  | team | itemType | liquidType | unitType | senseable | operandTest | operandTriple
  | operandDouble | targetClass | unitSortCriteria | buildingGroup | ruleName =>
    exact hword _ (by simp [vocabulary])
  | jumpAddress | senseShorthand => cases hty
  | _ => rfl

/-- Other types recognise no name that begins with an underscore. -/
theorem not_recognises_underscore {ty : Ty} (h : token.toList = '_' :: rest)
    (hty : ty.isNameShaped = false) : ty.recognises token = false :=
  not_recognises_of_front (Or.inl rfl) h hty fun _ => rfl

/-- A type that a guess can give does not look at the shape of a name. -/
theorem isNameShaped_of_guessable {ty : Ty} (h : ty.guessable = true) :
    ty.isNameShaped = false := by
  cases ty with
  | jumpAddress | senseShorthand => cases h
  | _ => rfl

/-- A name that begins with an underscore looks like a variable. -/
theorem guess_underscore (h : token.toList = '_' :: rest) : guess token = .variable := by
  refine Classical.byContradiction fun hne => ?_
  obtain ⟨hguess, hrec⟩ := recognises_of_guess rfl hne
  rw [not_recognises_underscore h (isNameShaped_of_guessable hguess)] at hrec
  cases hrec

end Front

end Ty

/-! ## Parameters and new names -/

namespace Param

/-- A value that is taken for what it looks like may be replaced by one that looks alike. -/
theorem takes_of_looks {p : Param} {token token' : String} (hform : p.form ≠ .keyword)
    (hrec : ∀ ty, p.ty? = some ty → ty.recognises token = false)
    (hlooks : Ty.guess token' = Ty.guess token) (h : p.takes token = true) :
    p.takes token' = true := by
  obtain ⟨name, form, optional⟩ := p
  cases form with
  | keyword => exact absurd rfl hform
  | value ty written variadic =>
    have hnot := hrec ty rfl
    simp only [takes, hlooks, hnot, Bool.or_false] at h ⊢
    cases hr : ty.recognises token' with
    | false => simpa using h
    | true =>
      cases written with
      | true => exact h
      | false =>
        simp only [Bool.false_eq_true, if_false] at h ⊢
        split at h
        · next hwild => rw [if_pos hwild]
        · next hwild =>
          rw [if_neg hwild]
          split at h
          · cases h
          · next hexcludes =>
            rw [if_neg hexcludes]
            simp

/-- Whether a parameter sees nothing in a name that begins with an underscore but a variable. -/
def isBlind (p : Param) : Bool :=
  match p.form with
  | .keyword => p.name.front? != some '_'
  | .value ty _ _ => !ty.isNameShaped

/-- A blind parameter that takes such a name takes whatever looks like a variable. -/
theorem takes_of_isBlind {p : Param} {token token' : String} {rest : List Char}
    (hblind : p.isBlind = true) (h : token.toList = '_' :: rest) (ht : p.takes token = true)
    (hv : Ty.guess token' = .variable) : p.takes token' = true := by
  cases hform : p.form with
  | keyword =>
    have hname : token = p.name := by simpa [takes, hform] using ht
    simp [isBlind, hform, String.front?_eq, ← hname, h] at hblind
  | value ty written variadic =>
    refine takes_of_looks (by simp [hform]) (fun ty' hty => ?_)
      (hv.trans (Ty.guess_underscore h).symm) ht
    obtain rfl : ty = ty' := by simpa [ty?, hform] using hty
    exact Ty.not_recognises_underscore h (by simpa [isBlind, hform] using hblind)

end Param

/-! ## Labels and new names -/

namespace Text

/-- Whether every range of a table lies in a range of another. -/
def within (table table' : List (Nat × Nat)) : Bool :=
  table.all fun r => table'.any fun r' => r'.1.ble r.1 && r.2.ble r'.2

theorem inRanges_of_within {table table' : List (Nat × Nat)} {n : Nat}
    (hwithin : within table table' = true) (h : inRanges table n = true) :
    inRanges table' n = true := by
  obtain ⟨r, hr, hn⟩ := List.any_eq_true.mp h
  obtain ⟨r', hr', hle⟩ := List.any_eq_true.mp (List.all_eq_true.mp hwithin r hr)
  refine List.any_eq_true.mpr ⟨r', hr', ?_⟩
  simp only [Bool.and_eq_true, decide_eq_true_eq, Nat.ble_eq] at hle hn ⊢
  omega

/-- A decimal digit can occur inside a name. -/
theorem isWord_of_isDigit {c : Char} (h : isDigit c = true) : isWord c = true := by
  have hranges : within wideDigits wideWords = true := by decide +kernel
  simp only [isDigit, Bool.or_eq_true, Bool.and_eq_true] at h
  rcases h with h | ⟨hwide, h⟩
  · simp [isWord, Char.isAlphanum, h]
  · simp only [isWord, hwide, inRanges_of_within hranges h, Bool.and_true, Bool.or_true]

end Text

namespace Reference

/-- Delimiting references adds only what delimits them. -/
theorem mem_delimit {text : String} {c : Char} (h : c ∈ (delimit text).toList) :
    c ∈ text.toList ∨ c = '$' ∨ c = '(' ∨ c = ')' := by
  rw [delimit, toList_fill, fillChars] at h
  obtain ⟨piece, hpiece, hc⟩ := List.mem_flatMap.mp h
  have hsource : ∀ d ∈ piece.source, d ∈ text.toList := by
    intro d hd
    rw [← flatMap_source_scan text.toList]
    exact List.mem_flatMap.mpr ⟨piece, hpiece, hd⟩
  have hname : ∀ name : List Char, (∀ d ∈ name, d ∈ piece.source) →
      c ∈ ("$(" ++ String.ofList name ++ ")").toList →
        c ∈ text.toList ∨ c = '$' ∨ c = '(' ∨ c = ')' := by
    intro name hsub hmem
    simp only [String.toList_append, String.toList_ofList, List.mem_append] at hmem
    rcases hmem with (hmem | hmem) | hmem
    · have hopen : c = '$' ∨ c = '(' := by simpa using hmem
      rcases hopen with rfl | rfl <;> simp
    · exact Or.inl (hsource c (hsub c hmem))
    · have hclose : c = ')' := by simpa using hmem
      simp [hclose]
  cases piece with
  | char d => exact Or.inl (hsource c hc)
  | bare name => exact hname name (fun d hd => by simp [Piece.source, hd]) hc
  | delimited name => exact hname name (fun d hd => by simp [Piece.source, hd]) hc

end Reference

namespace BlockStack

variable {stack : BlockStack}

/-- The names of the scopes are made of what a label is made of. -/
def TargetScopes (stack : BlockStack) : Prop :=
  ∀ name ∈ stack.scopes, ∀ c ∈ name.toList, Shape.isTargetChar c = true

instance (stack : BlockStack) : Decidable stack.TargetScopes :=
  decidable_of_iff ((stack.scopes.all fun name => name.toList.all Shape.isTargetChar) = true)
    (by simp only [List.all_eq_true, TargetScopes])

theorem mem_intercalate {sep : Char} {parts : List (List Char)} {c : Char}
    (h : c ∈ [sep].intercalate parts) : c = sep ∨ ∃ part ∈ parts, c ∈ part := by
  induction parts with
  | nil => simp at h
  | cons first rest ih =>
    cases rest with
    | nil => exact Or.inr ⟨first, by simp, by simpa using h⟩
    | cons second rest =>
      rw [List.intercalate_cons_cons, List.mem_append, List.mem_append] at h
      rcases h with (h | h) | h
      · exact Or.inr ⟨first, by simp, h⟩
      · exact Or.inl (by simpa using h)
      · rcases ih h with h | ⟨part, hpart, h⟩
        · exact Or.inl h
        · exact Or.inr ⟨part, List.mem_cons_of_mem first hpart, h⟩

theorem isTargetChar_scopesText (h : stack.TargetScopes) {c : Char}
    (hc : c ∈ stack.scopesText.toList) : Shape.isTargetChar c = true := by
  have hunderscore : "_".toList = ['_'] := rfl
  rw [scopesText, String.toList_intercalate, hunderscore] at hc
  rcases mem_intercalate hc with rfl | ⟨part, hpart, hc⟩
  · decide
  · obtain ⟨delimited, hdelimited, rfl⟩ := List.mem_map.mp hpart
    obtain ⟨name, hname, rfl⟩ := List.mem_map.mp hdelimited
    rcases Reference.mem_delimit hc with hc | rfl | rfl | rfl
    · exact h name hname c hc
    · decide
    · decide
    · decide

theorem isTargetChar_of_isTarget {cs : List Char} (h : Shape.isTarget cs = true) :
    ∀ c ∈ cs, Shape.isTargetChar c = true := by
  have hword : ∀ {c : Char}, Text.isWord c = true → Shape.isTargetChar c = true := by
    intro c hc
    simp [Shape.isTargetChar, hc]
  rcases Bool.or_eq_true_iff.mp h with h | h
  · simp only [Shape.isDigits, Bool.and_eq_true, List.all_eq_true] at h
    exact fun c hc => hword (Text.isWord_of_isDigit (h.2 c hc))
  · cases cs with
    | nil => cases h
    | cons first rest =>
      simp only [Bool.and_eq_true, Bool.or_eq_true, beq_iff_eq, List.all_eq_true] at h
      obtain ⟨hfirst, hrest⟩ := h
      rw [List.forall_mem_cons]
      refine ⟨?_, hrest⟩
      rcases hfirst with hfirst | rfl
      · exact hword (Text.isWord_of_isNameStart hfirst)
      · decide

theorem toList_scoped (stack : BlockStack) (name : String) :
    ("_" ++ stack.scopesText ++ "_" ++ name).toList =
      '_' :: (stack.scopesText.toList ++ '_' :: name.toList) := by
  simp

/-- A label with scopes in front is a jump target like the label. -/
theorem isTarget_qualify (h : stack.TargetScopes) {target : String}
    (ht : Shape.isTarget target.toList = true) :
    Shape.isTarget (stack.qualify target).toList = true := by
  rcases stack.qualify_cases target with hq | hq
  · rw [hq]
    exact ht
  · have hall : ∀ c ∈ stack.scopesText.toList ++ '_' :: target.toList,
        Shape.isTargetChar c = true := by
      intro c hc
      rcases List.mem_append.mp hc with hc | hc
      · exact isTargetChar_scopesText h hc
      · rcases List.mem_cons.mp hc with rfl | hc
        · decide
        · exact isTargetChar_of_isTarget ht c hc
    rw [hq, toList_scoped, Shape.isTarget, Bool.or_eq_true]
    exact Or.inr (Bool.and_eq_true_iff.mpr ⟨by decide, List.all_eq_true.mpr hall⟩)

/-- A name that is not left alone begins with an underscore. -/
theorem qualify_eq_or_underscore (stack : BlockStack) (name : String) :
    stack.qualify name = name ∨ ∃ rest, (stack.qualify name).toList = '_' :: rest := by
  rcases stack.qualify_cases name with hq | hq
  · exact Or.inl hq
  · exact Or.inr ⟨_, by rw [hq, toList_scoped]⟩

/-- The name that discards a value stays, and no other becomes it. -/
theorem qualify_eq_discard_iff (stack : BlockStack) (name : String) :
    stack.qualify name = "_" ↔ name = "_" := by
  constructor
  · intro h
    rcases stack.qualify_cases name with hq | hq
    · rw [← hq, h]
    · have hlist := congrArg String.toList (hq.symm.trans h)
      rw [toList_scoped] at hlist
      simp at hlist
  · rintro rfl
    simp [qualify]

end BlockStack

/-! ## Lines -/

namespace Compile

section Operand

variable {stack : BlockStack} {p : Param} {token : String}

/-- A number is no label, and stays. -/
theorem qualifyOperand_target (hty : p.ty? = some .jumpAddress) :
    qualifyOperand stack (some p) token =
      if token.toList.all Char.isDigit then token else stack.qualify token := by
  simp only [qualifyOperand, Option.bind_some, hty]
  cases token.toList.all Char.isDigit <;> rfl

/-- Of other operands the variables get the scopes. -/
theorem qualifyOperand_value {ty : Ty} (hty : p.ty? = some ty) (hjump : ty ≠ .jumpAddress) :
    qualifyOperand stack (some p) token =
      if Overload.isVariable ty token then stack.qualify token else token := by
  have hbeq : (ty == .jumpAddress) = false := by simpa using hjump
  simp [qualifyOperand, hty, hbeq]

/-- An operand is left alone, or it is a label or a variable and its new name begins with an
underscore. -/
theorem qualifyOperand_cases (stack : BlockStack) (p : Param) (token : String) :
    qualifyOperand stack (some p) token = token ∨
      (∃ rest, (qualifyOperand stack (some p) token).toList = '_' :: rest) ∧
        qualifyOperand stack (some p) token = stack.qualify token ∧
          (p.ty? = some .jumpAddress ∨
            ∃ ty, p.ty? = some ty ∧ Overload.isVariable ty token = true) := by
  cases hty : p.ty? with
  | none => exact Or.inl (by simp [qualifyOperand, hty])
  | some ty =>
    by_cases hjump : ty = .jumpAddress
    · subst hjump
      rw [qualifyOperand_target hty]
      split
      · exact Or.inl rfl
      · exact (stack.qualify_eq_or_underscore token).imp_right fun h => ⟨h, rfl, Or.inl rfl⟩
    · rw [qualifyOperand_value hty hjump]
      split
      · next hv =>
        exact (stack.qualify_eq_or_underscore token).imp_right fun h =>
          ⟨h, rfl, Or.inr ⟨ty, rfl, hv⟩⟩
      · exact Or.inl rfl

/-- A variable looks like one, and its type does not recognise it. -/
theorem of_isVariable {ty : Ty} (h : Overload.isVariable ty token = true) :
    ty.recognises token = false ∧ Ty.guess token = .variable := by
  simpa [Overload.isVariable] using h

/-- What may be jumped to has the shape of a label, and no other look. -/
theorem takes_jumpAddress_iff {name : String} {variadic optional : Bool} :
    (Param.mk name (.value .jumpAddress false variadic) optional).takes token = true ↔
      Ty.guess token ∉ [Ty.string, .boolean, .null] ∧ Shape.isTarget token.toList = true := by
  have hlooks : Ty.guess token ≠ .jumpAddress := by
    intro hq
    cases (Ty.recognises_of_guess hq (by simp)).1
  simp [Param.takes, Ty.isWildcard, Ty.excludes, Ty.admits, Ty.recognises, hlooks]

theorem takes_qualifyOperand (h : stack.TargetScopes) (ht : p.takes token = true) :
    p.takes (qualifyOperand stack (some p) token) = true := by
  rcases qualifyOperand_cases stack p token with hq | ⟨⟨rest, hrest⟩, hq, hty⟩
  · rw [hq]
    exact ht
  · have hlooks := Ty.guess_underscore hrest
    obtain ⟨name, form, optional⟩ := p
    cases form with
    | keyword => rcases hty with hty | ⟨ty, hty, -⟩ <;> cases hty
    | value ty written variadic =>
      rcases hty with hjump | ⟨ty', hty, hv⟩
      · obtain rfl : ty = .jumpAddress := Option.some.inj hjump
        cases written with
        | true => simp [Param.takes, hlooks]
        | false =>
          rw [takes_jumpAddress_iff] at ht ⊢
          rw [hlooks, hq]
          exact ⟨by decide, stack.isTarget_qualify h ht.2⟩
      · obtain rfl : ty = ty' := Option.some.inj hty
        obtain ⟨hrec, hguess⟩ := of_isVariable hv
        refine Param.takes_of_looks (by simp) (fun ty' hty' => ?_) (hlooks.trans hguess.symm) ht
        obtain rfl : ty = ty' := Option.some.inj hty'
        exact hrec

end Operand

section Line

variable {stack : BlockStack} {c : Overload} {m : String} {ops : List String}

/-- The operands of a line with scopes in front, one by one. -/
theorem getElem?_qualifyLine (hb : c.block = none) (i : Nat) :
    (qualifyLine stack c (m :: ops)).tail[i]? =
      ops[i]?.map (qualifyOperand stack (c.paramAt? i)) := by
  rw [qualifyLine_cons hb, List.tail_cons, List.getElem?_map, List.getElem?_zipIdx]
  cases ops[i]? with
  | none => rfl
  | some token => simp

theorem takes_qualifyLine (h : stack.TargetScopes) (hb : c.block = none)
    (ht : c.takes (m :: ops) = true) : c.takes (qualifyLine stack c (m :: ops)) = true := by
  rw [Overload.takes_iff, Overload.operands_eq_tail hb] at ht ⊢
  obtain ⟨hcount, hp⟩ := ht
  constructor
  · rw [qualifyLine_cons hb]
    simpa using hcount
  · intro i token p htoken hpi
    rw [getElem?_qualifyLine hb] at htoken
    obtain ⟨old, hold, rfl⟩ := Option.map_eq_some_iff.mp htoken
    rw [hpi]
    exact takes_qualifyOperand h (hp i old p hold hpi)

/-- An overload that is blind to new names takes a line with scopes in front only if it takes the
line without. -/
theorem takes_of_takes_qualifyLine {c' : Overload} (hb : c.block = none) (hb' : c'.block = none)
    (hjump : ∀ p ∈ c.params, p.ty? ≠ some .jumpAddress) (hblind : ∀ p ∈ c'.params, p.isBlind = true)
    (ht : c'.takes (qualifyLine stack c (m :: ops)) = true) : c'.takes (m :: ops) = true := by
  rw [Overload.takes_iff, Overload.operands_eq_tail hb'] at ht ⊢
  obtain ⟨hcount, hp⟩ := ht
  constructor
  · rw [qualifyLine_cons hb] at hcount
    simpa using hcount
  · intro i token p htoken hpi
    have hnew := hp i (qualifyOperand stack (c.paramAt? i) token) p
      (by rw [getElem?_qualifyLine hb]; exact congrArg (Option.map _) htoken) hpi
    cases hq : c.paramAt? i with
    | none =>
      rw [hq] at hnew
      exact hnew
    | some q =>
      rw [hq] at hnew
      rcases qualifyOperand_cases stack q token with hsame | ⟨⟨rest, hrest⟩, -, hty | ⟨ty, -, hv⟩⟩
      · rwa [hsame] at hnew
      · exact absurd hty (hjump q (Overload.paramAt?_mem hq))
      · exact Param.takes_of_isBlind (hblind p (Overload.paramAt?_mem hpi)) hrest hnew
          (of_isVariable hv).2

/-- The overloads of one mnemonic are kept apart by their counts, or are blind to new names. -/
theorem blind_of_mem : ∀ c ∈ Instruction.table, c.isBase = true →
    ∀ c' ∈ Instruction.overloads c.mnemonic, c'.block = none ∧
      (c.countsApart c' = true ∨ (∀ p ∈ c.params, p.ty? ≠ some .jumpAddress) ∧
        ∀ p ∈ c'.params, p.isBlind = true) ∨ c' = c := by
  decide +kernel

/-- **A line with scopes in front means what it meant.** -/
theorem resolve_qualifyLine (h : stack.TargetScopes) (hr : Instruction.resolve (m :: ops) = .ok c)
    (hbase : c.isBase = true) :
    Instruction.resolve (qualifyLine stack c (m :: ops)) = .ok c := by
  have hb := (Overload.isBase_iff.mp hbase).2
  obtain ⟨hmem, hh, ht⟩ := Instruction.of_resolve hr
  obtain rfl : m = c.mnemonic := Option.some.inj hh
  have hnew := takes_qualifyLine h hb ht
  rw [Instruction.resolve_eq_ok_iff, List.find?_eq_some_iff_append] at hr
  obtain ⟨-, before, after, hlist, hrefused⟩ := hr
  have hstill : ∀ c' ∈ before, (!c'.takes (qualifyLine stack c (c.mnemonic :: ops))) = true := by
    intro c' hc'
    have hold := hrefused c' hc'
    cases htakes : c'.takes (qualifyLine stack c (c.mnemonic :: ops)) with
    | false => rfl
    | true =>
      have hin : c' ∈ Instruction.overloads c.mnemonic := by simp [hlist, hc']
      rcases blind_of_mem c hmem hbase c' hin with ⟨hb', hapart | ⟨hjump, hblind⟩⟩ | rfl
      · have hcount := (Overload.takes_iff.mp hnew).1
        have hcount' := (Overload.takes_iff.mp htakes).1
        rw [Overload.operands_eq_tail hb] at hcount
        rw [Overload.operands_eq_tail hb'] at hcount'
        exact absurd hcount' fun hcount' =>
          Overload.not_takesCount_of_countsApart hapart hcount hcount'
      · rw [takes_of_takes_qualifyLine hb hb' hjump hblind htakes] at hold
        cases hold
      · rw [ht] at hold
        cases hold
  rw [qualifyLine_cons hb] at hnew hstill ⊢
  rw [Instruction.resolve_eq_ok_iff, List.find?_eq_some_iff_append]
  exact ⟨hnew, before, after, hlist, hstill⟩

/-- The operands of a line keep their parameters. -/
theorem bind_qualifyLine (hb : c.block = none) :
    c.bind (qualifyLine stack c (m :: ops)) =
      (c.bind (m :: ops)).map fun (token, p) => (qualifyOperand stack (some p) token, p) := by
  have hzip : ∀ (ops : List String) (k : Nat),
      ((ops.zipIdx k).map fun ti => qualifyOperand stack (c.paramAt? ti.2) ti.1).zipIdx k =
        (ops.zipIdx k).map fun ti => (qualifyOperand stack (c.paramAt? ti.2) ti.1, ti.2) := by
    intro ops
    induction ops with
    | nil => intro k; rfl
    | cons token ops ih =>
      intro k
      simp only [List.zipIdx_cons, List.map_cons, ih]
  unfold Overload.bind
  rw [Overload.operands_eq_tail hb, Overload.operands_eq_tail hb, qualifyLine_cons hb,
    List.tail_cons, List.tail_cons, hzip, List.filterMap_map, List.map_filterMap]
  congr 1
  funext ⟨token, i⟩
  cases hp : c.paramAt? i <;> simp [hp]

/-- No base overload has the shorthand for a parameter. -/
theorem ty_of_isBase : ∀ c ∈ Instruction.table, c.isBase = true →
    ∀ p ∈ c.params, p.ty? ≠ some .senseShorthand := by
  decide +kernel

/-- A variable is one under its new name. -/
theorem isVariable_qualify {ty : Ty} {token : String} (hty : ty.isNameShaped = false)
    (h : Overload.isVariable ty token = true) :
    Overload.isVariable ty (stack.qualify token) = true := by
  rcases stack.qualify_eq_or_underscore token with hq | ⟨rest, hrest⟩
  · rw [hq]
    exact h
  · simp [Overload.isVariable, Ty.not_recognises_underscore hrest hty, Ty.guess_underscore hrest]

/-- The variables that a line reads are read under their new names. -/
theorem usages_qualifyLine (hmem : c ∈ Instruction.table) (hbase : c.isBase = true) :
    c.usages (qualifyLine stack c (m :: ops)) =
      (c.usages (m :: ops)).map fun u => (stack.qualify u.1, u.2) := by
  have hb := (Overload.isBase_iff.mp hbase).2
  unfold Overload.usages
  rw [bind_qualifyLine hb, List.filterMap_map, List.map_filterMap]
  refine List.filterMap_congr fun ⟨token, p⟩ hbound => ?_
  obtain ⟨i, -, hpi⟩ := Overload.mem_bind_iff.mp hbound
  have hshort := ty_of_isBase c hmem hbase p (Overload.paramAt?_mem hpi)
  cases hform : p.form with
  | keyword => simp [hform]
  | value ty written variadic =>
    cases written with
    | true => simp [hform]
    | false =>
      have hty : p.ty? = some ty := by simp [Param.ty?, hform]
      by_cases hjump : ty = .jumpAddress
      · simp [hform, hjump]
      · have hshape : ty.isNameShaped = false := by
          cases ty with
          | jumpAddress => exact absurd rfl hjump
          | senseShorthand => exact absurd hty hshort
          | _ => rfl
        simp only [Function.comp_apply, hform, qualifyOperand_value hty hjump]
        cases hv : Overload.isVariable ty token with
        | false => simp [hv]
        | true =>
          have hnew : Overload.isVariable ty (stack.qualify token) = true :=
            isVariable_qualify hshape hv
          by_cases hdiscard : token = "_"
          · simp [hdiscard, (stack.qualify_eq_discard_iff "_").mpr rfl]
          · have hkept : stack.qualify token ≠ "_" :=
              fun hq => hdiscard ((stack.qualify_eq_discard_iff token).mp hq)
            simp [hjump, hnew, hdiscard, hkept]

/-- The labels that a line jumps to are jumped to under their new names. -/
theorem targets_qualifyLine (hb : c.block = none) :
    c.targets (qualifyLine stack c (m :: ops)) =
      (c.targets (m :: ops)).map fun target =>
        if target.toList.all Char.isDigit then target else stack.qualify target := by
  unfold Overload.targets
  rw [bind_qualifyLine hb, List.filterMap_map, List.map_filterMap]
  congr 1
  funext ⟨token, p⟩
  by_cases hty : p.ty? = some .jumpAddress
  · simp [hty, qualifyOperand_target hty]
  · simp [hty]

end Line

/-! ## Labels -/

section Label

variable {stack : BlockStack} {label : String}

theorem labelName?_append_colon_iff {name : String} :
    labelName? (name ++ ":") = some name ↔
      name.toList ≠ [] ∧ ∀ c ∈ name.toList, c ≠ ':' ∧ c ≠ '"' := by
  simp [labelName?]

/-- A label under its new name is a label. -/
theorem labelName?_qualify (h : stack.TargetScopes) (hl : labelName? (label ++ ":") = some label) :
    labelName? (stack.qualify label ++ ":") = some (stack.qualify label) := by
  rcases stack.qualify_cases label with hq | hq
  · rw [hq]
    exact hl
  · rw [labelName?_append_colon_iff] at hl ⊢
    have hscopes : ∀ c ∈ stack.scopesText.toList, c ≠ ':' ∧ c ≠ '"' := by
      intro c hc
      have htarget := stack.isTargetChar_scopesText h hc
      constructor
      · rintro rfl
        exact absurd htarget (by decide)
      · rintro rfl
        exact absurd htarget (by decide)
    rw [hq, BlockStack.toList_scoped]
    refine ⟨by simp, ?_⟩
    rw [List.forall_mem_cons, List.forall_mem_append, List.forall_mem_cons]
    exact ⟨by decide, hscopes, by decide, hl.2⟩

/-- A label is compiled to itself under its new name. -/
theorem statement_label {options : Options} {tokens : List String} {provenance : Provenance}
    (hl : labelOf? tokens = some label) :
    statement options stack tokens provenance =
      emit [] stack [⟨[stack.qualify label ++ ":"], provenance⟩] := by
  obtain rfl := tokens_of_labelOf? hl
  have hkeyword : Instruction.isBlockKeyword (label ++ ":") = false := by
    rw [Instruction.isBlockKeyword, List.any_eq_false]
    intro o ho
    obtain ⟨hmem, hm⟩ := Instruction.mem_overloads_iff.mp ho
    have hcolon := (Instruction.plain_of_mem o hmem).2.1
    rw [hm] at hcolon
    exact absurd (by simp) hcolon
  simp only [statement, hkeyword, Bool.false_eq_true, if_false, hl]

end Label

/-- **Scopes only rename.**  A base instruction with the open scopes in front means the overload
that it meant before.  Its mnemonic stays, and so does every operand at a keyword and every other
operand, targets apart, that its type recognises or that looks like more than a variable.  What it
reads is what it read under the new names, at the same types; what it jumps to is what it jumped
to, under the new names where it is no number.  A label gets the same new name as a jump to it. -/
theorem qualifyLine_renames {stack : BlockStack} (hscopes : stack.TargetScopes)
    {line : List String} {c : Overload} (hr : Instruction.resolve line = .ok c)
    (hx : c.expansion = .asWritten) (hb : c.block = none) :
    Instruction.resolve (qualifyLine stack c line) = .ok c ∧
    ((qualifyLine stack c line).head? = line.head? ∧
      (qualifyLine stack c line).length = line.length ∧
      ∀ (i : Nat) (token : String) (p : Param), (c.operands line)[i]? = some token →
        c.paramAt? i = some p →
        (p.form = .keyword ∨ ∃ ty, p.ty? = some ty ∧ ty ≠ .jumpAddress ∧
          (ty.recognises token = true ∨ Ty.guess token ≠ .variable)) →
        (c.operands (qualifyLine stack c line))[i]? = some token) ∧
    c.usages (qualifyLine stack c line) =
      (c.usages line).map (fun u => (stack.qualify u.1, u.2)) ∧
    c.targets (qualifyLine stack c line) =
      (c.targets line).map (fun target =>
        if target.toList.all Char.isDigit then target else stack.qualify target) ∧
    ∀ options tokens provenance label, labelOf? tokens = some label →
      statement options stack tokens provenance =
          emit [] stack [⟨[stack.qualify label ++ ":"], provenance⟩] ∧
        Statement.label? ⟨[stack.qualify label ++ ":"], provenance⟩ = some (stack.qualify label) ∧
        (label ∈ c.targets line → label.toList.all Char.isDigit = false →
          stack.qualify label ∈ c.targets (qualifyLine stack c line)) := by
  have hbase : c.isBase = true := Overload.isBase_iff.mpr ⟨hx, hb⟩
  obtain ⟨hmem, hh, -⟩ := Instruction.of_resolve hr
  obtain ⟨ops, rfl⟩ := List.head?_eq_some_iff.mp hh
  refine ⟨resolve_qualifyLine hscopes hr hbase, ⟨?_, ?_, ?_⟩, usages_qualifyLine hmem hbase,
    targets_qualifyLine hb, ?_⟩
  · rw [qualifyLine_cons hb]
    rfl
  · rw [qualifyLine_cons hb]
    simp
  · intro i token p htoken hp hkept
    rw [Overload.operands_eq_tail hb, List.tail_cons] at htoken
    rw [Overload.operands_eq_tail hb, getElem?_qualifyLine hb, htoken, hp, Option.map_some,
      Option.some.injEq]
    rcases hkept with hform | ⟨ty, hty, hjump, hkept⟩
    · simp [qualifyOperand, Param.ty?, hform]
    · have hv : Overload.isVariable ty token = false := by
        rcases hkept with hkept | hkept <;> simp [Overload.isVariable, hkept]
      rw [qualifyOperand_value hty hjump, hv]
      rfl
  · intro options tokens provenance label hl
    refine ⟨statement_label hl, ?_, fun htarget hdigits => ?_⟩
    · have hname : labelName? (label ++ ":") = some label := by
        rw [tokens_of_labelOf? hl] at hl
        exact hl
      exact labelName?_qualify hscopes hname
    · rw [targets_qualifyLine hb]
      exact List.mem_map.mpr ⟨label, htarget, by simp [hdigits]⟩

theorem qualifyLine_renames_jump :
    ∃ c, Instruction.resolve ["jump", "loop", "equal", "x", "1"] = .ok c ∧
      qualifyLine [.scope "b" ⟨"main.mlogx", 2⟩, .scope "a" ⟨"main.mlogx", 1⟩] c
          ["jump", "loop", "equal", "x", "1"] = ["jump", "_a_b_loop", "equal", "_a_b_x", "1"] ∧
        Instruction.resolve ["jump", "_a_b_loop", "equal", "_a_b_x", "1"] = .ok c ∧
          c.usages ["jump", "_a_b_loop", "equal", "_a_b_x", "1"] = [("_a_b_x", .any)] ∧
            c.targets ["jump", "_a_b_loop", "equal", "_a_b_x", "1"] = ["_a_b_loop"] := by
  let stack : BlockStack := [.scope "b" ⟨"main.mlogx", 2⟩, .scope "a" ⟨"main.mlogx", 1⟩]
  let line : List String := ["jump", "loop", "equal", "x", "1"]
  have hfound : ∃ c ∈ (Instruction.overloads "jump").find? (·.takes line),
      c.expansion = .asWritten ∧ c.block = none ∧
        qualifyLine stack c line = ["jump", "_a_b_loop", "equal", "_a_b_x", "1"] ∧
          c.usages line = [("x", .any)] ∧ c.targets line = ["loop"] := by
    decide +kernel
  obtain ⟨c, hc, hx, hb, hline, husages, htargets⟩ := hfound
  have hr : Instruction.resolve line = .ok c := Instruction.resolve_eq_ok_iff.mpr hc
  have hscopes : stack.TargetScopes := by decide +kernel
  obtain ⟨hresolve, -, hreads, hjumps, -⟩ := qualifyLine_renames hscopes hr hx hb
  have hloop : stack.qualify "loop" = "_a_b_loop" := by decide +kernel
  have hvar : stack.qualify "x" = "_a_b_x" := by decide +kernel
  have hdigits : "loop".toList.all Char.isDigit = false := by decide
  rw [hline] at hresolve hreads hjumps
  rw [husages, List.map_singleton, hvar] at hreads
  rw [htargets, List.map_singleton, hdigits, if_neg Bool.false_ne_true, hloop] at hjumps
  exact ⟨c, hr, hline, hresolve, hreads, hjumps⟩

end Compile

end Mlog
