import Mlog.Instruction.Resolve

/-!
# Which lines an overload takes

`Overload.check` reports the first fault of a line; the proofs ask only whether there is one.
`Overload.takes_iff` says when there is none: the number of operands is within the bounds, and
every operand is taken by the parameter at its position.  `resolve_eq_ok_iff` says the same of the
whole table: a line means the first overload of its mnemonic that takes it.

Some parameters leave no choice but a word of a fixed list: a keyword, an operation, a comparison.
`Param.words?` is that list, and the *frame* of a line (`Overload.Framed`) is what it keeps of the
overload that took it when only the other operands are rewritten.  Putting scopes in front of
variables and binding loop variables both keep the frame, which is why they cannot turn a base
instruction into an extended one.
-/
set_option autoImplicit false

namespace Mlog

/-! ## What a guess can be -/

namespace Ty

/-- A guess other than `variable` is a guessable type that recognises the token. -/
theorem recognises_of_guess {token : String} {ty : Ty} (h : guess token = ty)
    (hv : ty ≠ .variable) : ty.guessable = true ∧ ty.recognises token = true := by
  unfold guess at h
  cases hf : all.find? fun t => t.guessable && t.recognises token with
  | none =>
    rw [hf] at h
    exact absurd h.symm hv
  | some t =>
    rw [hf] at h
    obtain rfl : t = ty := h
    simpa using List.find?_some hf

/-- What is guessable and recognises a token keeps it from looking like a variable. -/
theorem guess_ne_variable {token : String} {ty : Ty} (hg : ty.guessable = true)
    (hr : ty.recognises token = true) : guess token ≠ .variable := by
  unfold guess
  cases hf : all.find? fun t => t.guessable && t.recognises token with
  | none =>
    have hn := List.find?_eq_none.mp hf ty (mem_all ty)
    simp [hg, hr] at hn
  | some t =>
    intro ht
    obtain rfl : t = .variable := ht
    have hs := List.find?_some hf
    simp [guessable] at hs

/-- The words of a type whose tokens are words that look like variables everywhere else. -/
def words? : Ty → Option (List String)
  | operandTest => some Vocabulary.tests
  | operandTriple => some Vocabulary.binaryOperations
  | operandDouble => some Vocabulary.unaryOperations
  | targetClass => some Vocabulary.targetClasses
  | unitSortCriteria => some Vocabulary.sortCriteria
  | buildingGroup => some Vocabulary.buildingGroups
  | ruleName => some Vocabulary.rules
  | _ => none

/-- A type with words is none that a guess can give, recognises its words and nothing else, and
lets no other type stand in. -/
theorem recognises_iff_of_words {ty : Ty} {ws : List String} (h : ty.words? = some ws) :
    ty.guessable = false ∧ ty.isWildcard = false ∧ ty.excludes = [] ∧ ty.admits = [] ∧
      ty ≠ .variable ∧ ∀ token, ty.recognises token = true ↔ token ∈ ws := by
  cases ty <;> simp only [words?, Option.some.injEq, reduceCtorEq] at h
  all_goals
    subst h
    simp [guessable, isWildcard, excludes, admits, recognises]

end Ty

/-! ## Parameters -/

namespace Param

/-- The words that may stand at a parameter's position, where it leaves no other choice. -/
def words? (p : Param) : Option (List String) :=
  match p.form with
  | .keyword => some [p.name]
  | .value ty false _ => ty.words?
  | .value _ true _ => none

/-- A parameter with words takes its words and nothing else. -/
theorem takes_iff_of_words {p : Param} {ws : List String} (h : p.words? = some ws)
    (token : String) : p.takes token = true ↔ token ∈ ws := by
  obtain ⟨name, form, optional⟩ := p
  cases form with
  | keyword =>
    obtain rfl := Option.some.inj h
    simp [takes]
  | value ty written variadic =>
    cases written with
    | true => exact absurd h (by simp [words?])
    | false =>
      obtain ⟨hg, hw, he, ha, hv, hr⟩ := @Ty.recognises_iff_of_words ty ws h
      have hlooks : Ty.guess token ≠ ty := by
        intro hq
        have := (Ty.recognises_of_guess hq hv).1
        rw [hg] at this
        exact absurd this (by simp)
      simp [takes, hw, he, ha, hlooks, hr]

/-- A value that is read at a wildcard type takes every token. -/
def isOpen (p : Param) : Bool :=
  match p.form with
  | .value ty false _ => ty.isWildcard
  | _ => false

theorem takes_of_isOpen {p : Param} (h : p.isOpen = true) (token : String) :
    p.takes token = true := by
  obtain ⟨name, form, optional⟩ := p
  cases form with
  | keyword => exact absurd h (by simp [isOpen])
  | value ty written variadic =>
    cases written with
    | true => exact absurd h (by simp [isOpen])
    | false =>
      have hw : ty.isWildcard = true := h
      simp [takes, hw]

end Param

/-! ## Overloads -/

namespace Overload

/-- The operands of an instruction are what follows its mnemonic. -/
theorem operands_eq_tail {o : Overload} (h : o.block = none) (tokens : List String) :
    o.operands tokens = tokens.tail := by
  simp [operands, h]

theorem mem_bind_iff {o : Overload} {tokens : List String} {token : String} {p : Param} :
    (token, p) ∈ o.bind tokens ↔
      ∃ i : Nat, (o.operands tokens)[i]? = some token ∧ o.paramAt? i = some p := by
  unfold bind
  rw [List.mem_filterMap]
  constructor
  · rintro ⟨⟨t, i⟩, hmem, hmap⟩
    obtain ⟨q, hq, heq⟩ := Option.map_eq_some_iff.mp hmap
    obtain ⟨rfl, rfl⟩ := Prod.mk.inj heq
    exact ⟨i, List.mem_zipIdx_iff_getElem?.mp hmem, hq⟩
  · rintro ⟨i, hi, hp⟩
    exact ⟨(token, i), List.mem_zipIdx_iff_getElem?.mpr hi, by simp [hp]⟩

/-- **An overload takes a line** when it has the right number of operands and the parameter at
each position takes the operand there. -/
theorem takes_iff {o : Overload} {tokens : List String} :
    o.takes tokens = true ↔
      o.takesCount (o.operands tokens).length = true ∧
        ∀ (i : Nat) (token : String) (p : Param), (o.operands tokens)[i]? = some token →
          o.paramAt? i = some p → p.takes token = true := by
  have hbind : (∀ (i : Nat) (token : String) (p : Param), (o.operands tokens)[i]? = some token →
      o.paramAt? i = some p → p.takes token = true) ↔
      ((o.bind tokens).find? fun b => !b.2.takes b.1) = none := by
    rw [List.find?_eq_none]
    constructor
    · rintro h ⟨token, p⟩ hmem
      obtain ⟨i, hi, hp⟩ := mem_bind_iff.mp hmem
      simp [h i token p hi hp]
    · intro h i token p hi hp
      simpa using h (token, p) (mem_bind_iff.mpr ⟨i, hi, hp⟩)
  rw [hbind]
  unfold takes check
  by_cases hc : o.takesCount (o.operands tokens).length = true
  · cases hf : (o.bind tokens).find? fun b => !b.2.takes b.1 with
    | none => simp [hc, Except.isOk, Except.toBool]
    | some b => simp [hc, Except.isOk, Except.toBool]
  · simp [hc, Except.isOk, Except.toBool]

/-- What a line keeps of an overload when only the operands without words are rewritten: the
mnemonic, the number of operands, and the words. -/
structure Framed (o : Overload) (tokens : List String) : Prop where
  head : tokens.head? = some o.mnemonic
  count : o.takesCount (o.operands tokens).length = true
  words : ∀ (i : Nat) (token : String) (p : Param) (ws : List String),
    (o.operands tokens)[i]? = some token → o.paramAt? i = some p → p.words? = some ws → token ∈ ws

/-- A line that an overload takes has its frame. -/
theorem Framed.of_takes {o : Overload} {tokens : List String}
    (hh : tokens.head? = some o.mnemonic) (ht : o.takes tokens = true) : o.Framed tokens := by
  obtain ⟨hc, hp⟩ := takes_iff.mp ht
  exact ⟨hh, hc, fun i token p ws hi hpi hws =>
    (Param.takes_iff_of_words hws token).mp (hp i token p hi hpi)⟩

/-- An overload of the base dialect: it stays as it is, and it is no block construct. -/
def isBase (o : Overload) : Bool := o.expansion = .asWritten && o.block = none

theorem isBase_iff {o : Overload} :
    o.isBase = true ↔ o.expansion = .asWritten ∧ o.block = none := by
  simp [isBase]

/-- Whether the operand counts of two overloads exclude each other. -/
def countsApart (o o' : Overload) : Bool :=
  o.most.any (· < o'.least) || o'.most.any (· < o.least)

/-- Whether two overloads ask for different words at the same position. -/
def wordsApart (o o' : Overload) : Bool :=
  (List.range o.least).any fun i =>
    match (o.paramAt? i).bind Param.words?, (o'.paramAt? i).bind Param.words? with
    | some ws, some ws' => ws.all fun w => !ws'.contains w
    | _, _ => false

/-- Whether an overload takes every line with the right number of operands. -/
def isOpen (o : Overload) : Bool := o.params.all Param.isOpen

theorem paramAt?_mem {o : Overload} {i : Nat} {p : Param} (h : o.paramAt? i = some p) :
    p ∈ o.params := by
  unfold paramAt? at h
  cases hg : o.params[i]? with
  | some q =>
    rw [hg] at h
    obtain rfl := Option.some.inj h
    exact List.mem_of_getElem? hg
  | none =>
    rw [hg] at h
    exact List.mem_of_find?_eq_some h

/-- Within the bounds on their number, every operand has a parameter. -/
theorem exists_paramAt?_of_takesCount {o : Overload} {n i : Nat} (h : o.takesCount n = true)
    (hi : i < n) : ∃ p, o.paramAt? i = some p := by
  unfold paramAt?
  cases hp : o.params[i]? with
  | some p => exact ⟨p, rfl⟩
  | none =>
    have hbeyond := List.getElem?_eq_none_iff.mp hp
    simp only [takesCount, most, Bool.and_eq_true] at h
    cases hv : o.params.any Param.isVariadic with
    | true => exact Option.isSome_iff_exists.mp (List.find?_isSome.mpr (List.any_eq_true.mp hv))
    | false =>
      rw [hv] at h
      have hmost : n ≤ o.params.length := by simpa using h.2
      omega

/-- Every operand of a line that an overload takes has a parameter. -/
theorem exists_paramAt? {o : Overload} {tokens : List String} {i : Nat} {token : String}
    (ht : o.takes tokens = true) (hi : (o.operands tokens)[i]? = some token) :
    ∃ p, o.paramAt? i = some p :=
  exists_paramAt?_of_takesCount (takes_iff.mp ht).1 (List.getElem?_eq_some_iff.mp hi).1

theorem takes_of_isOpen {o : Overload} {tokens : List String} (h : o.isOpen = true)
    (hc : o.takesCount (o.operands tokens).length = true) : o.takes tokens = true := by
  refine takes_iff.mpr ⟨hc, fun i token p _ hp => ?_⟩
  exact Param.takes_of_isOpen (List.all_eq_true.mp h p (paramAt?_mem hp)) token

theorem le_of_takesCount {o : Overload} {n : Nat} (h : o.takesCount n = true) :
    o.least ≤ n ∧ ∀ m, o.most = some m → n ≤ m := by
  simp only [takesCount, Bool.and_eq_true, decide_eq_true_eq] at h
  refine ⟨h.1, fun m hm => ?_⟩
  have := h.2
  rw [hm] at this
  simpa using this

/-- Overloads whose counts exclude each other never take lines with the same operands. -/
theorem not_takesCount_of_countsApart {o o' : Overload} {n : Nat}
    (h : o.countsApart o' = true) (hc : o.takesCount n = true) (hc' : o'.takesCount n = true) :
    False := by
  obtain ⟨hl, hm⟩ := le_of_takesCount hc
  obtain ⟨hl', hm'⟩ := le_of_takesCount hc'
  simp only [countsApart, Bool.or_eq_true] at h
  rcases h with h | h
  · cases hmo : o.most with
    | none => rw [hmo] at h; simp at h
    | some m =>
      rw [hmo] at h
      have := hm m hmo
      simp at h
      omega
  · cases hmo : o'.most with
    | none => rw [hmo] at h; simp at h
    | some m =>
      rw [hmo] at h
      have := hm' m hmo
      simp at h
      omega

/-- A line in the frame of one overload is refused by every other whose words differ. -/
theorem not_takes_of_wordsApart {o o' : Overload} {tokens : List String}
    (h : o.wordsApart o' = true) (hb : o.block = o'.block) (hf : o.Framed tokens)
    (ht : o'.takes tokens = true) : False := by
  have hops : o'.operands tokens = o.operands tokens := by simp [operands, hb]
  obtain ⟨-, hp'⟩ := takes_iff.mp ht
  rw [hops] at hp'
  obtain ⟨i, hi, hw⟩ := List.any_eq_true.mp h
  have hlt : i < (o.operands tokens).length :=
    Nat.lt_of_lt_of_le (List.mem_range.mp hi) (le_of_takesCount hf.count).1
  have htok := List.getElem?_eq_getElem hlt
  cases hp : o.paramAt? i with
  | none => rw [hp] at hw; simp at hw
  | some p =>
    cases hq : o'.paramAt? i with
    | none => rw [hp, hq] at hw; simp at hw
    | some q =>
      rw [hp, hq] at hw
      simp only [Option.bind_some] at hw
      cases hpw : p.words? with
      | none => rw [hpw] at hw; simp at hw
      | some ws =>
        cases hqw : q.words? with
        | none => rw [hpw, hqw] at hw; simp at hw
        | some ws' =>
          rw [hpw, hqw] at hw
          have hin := hf.words i _ p ws htok hp hpw
          have hin' := (Param.takes_iff_of_words hqw _).mp (hp' i _ q htok hq)
          have := List.all_eq_true.mp hw _ hin
          simp [hin'] at this

end Overload

/-! ## The table -/

namespace Instruction

theorem mem_overloads_iff {m : String} {o : Overload} :
    o ∈ overloads m ↔ o ∈ table ∧ o.mnemonic = m := by
  simp [overloads]

/-- **A line means** the first overload of its mnemonic that takes it. -/
theorem resolve_eq_ok_iff {m : String} {rest : List String} {o : Overload} :
    resolve (m :: rest) = .ok o ↔
      (overloads m).find? (fun c => c.takes (m :: rest)) = some o := by
  unfold resolve
  simp only
  by_cases he : (overloads m).isEmpty = true
  · rw [List.isEmpty_iff.mp he]
    simp
  · rw [if_neg he]
    cases hf : (overloads m).find? fun c => c.takes (m :: rest) with
    | none => simp
    | some c => simp

/-- The overload that a line means is one of the table, has its mnemonic and takes it. -/
theorem of_resolve {tokens : List String} {o : Overload} (h : resolve tokens = .ok o) :
    o ∈ table ∧ tokens.head? = some o.mnemonic ∧ o.takes tokens = true := by
  cases tokens with
  | nil => exact absurd h (by simp [resolve])
  | cons m rest =>
    have hf := resolve_eq_ok_iff.mp h
    obtain ⟨hmem, hm⟩ := mem_overloads_iff.mp (List.mem_of_find?_eq_some hf)
    exact ⟨hmem, by simp [hm], by simpa using List.find?_some hf⟩

/-- A line that some overload of its mnemonic takes means something. -/
theorem exists_resolve {tokens : List String} {o : Overload} (hmem : o ∈ table)
    (hh : tokens.head? = some o.mnemonic) (ht : o.takes tokens = true) :
    ∃ c, resolve tokens = .ok c := by
  obtain ⟨rest, rfl⟩ := List.head?_eq_some_iff.mp hh
  have hs : ((overloads o.mnemonic).find? fun c => c.takes (o.mnemonic :: rest)).isSome = true :=
    List.find?_isSome.mpr ⟨o, mem_overloads_iff.mpr ⟨hmem, rfl⟩, ht⟩
  obtain ⟨c, hc⟩ := Option.isSome_iff_exists.mp hs
  exact ⟨c, resolve_eq_ok_iff.mpr hc⟩

/-- Extended overloads and block constructs. -/
def beyondBase : List Overload := table.filter (!·.isBase)

/-- Whether the table keeps the frame of a base overload from the reach of another one: their
counts or words differ, or the base overload comes first and takes all it could. -/
def guarded (o o' : Overload) : Bool :=
  o.block = o'.block &&
    (o.countsApart o' || o.wordsApart o' ||
      (o.isOpen && (overloads o.mnemonic).head? == some o))

/-- Every base overload is kept from every other one that shares its mnemonic. -/
theorem guarded_of_mem : ∀ o' ∈ beyondBase, ∀ o ∈ overloads o'.mnemonic,
    o.isBase = true → guarded o o' = true := by
  decide

/-- A line in the frame of a base overload means nothing beyond the base dialect.  In two of the
three ways that the table provides, the other overload refuses the line; in the third it is not
even tried. -/
theorem resolve_ne_of_framed {o c : Overload} {tokens : List String} (hmem : o ∈ table)
    (hb : o.isBase = true) (hf : o.Framed tokens) (hc : c ∈ beyondBase) :
    resolve tokens ≠ .ok c := by
  intro hr
  obtain ⟨-, hhead, ht⟩ := of_resolve hr
  have hm : o.mnemonic = c.mnemonic := Option.some.inj (hf.head.symm.trans hhead)
  have hg := guarded_of_mem c hc o (mem_overloads_iff.mpr ⟨hmem, hm⟩) hb
  simp only [guarded, Bool.and_eq_true, Bool.or_eq_true, decide_eq_true_eq, beq_iff_eq] at hg
  obtain ⟨hblock, (hcounts | hwords) | ⟨hopen, hfirst⟩⟩ := hg
  · have hcc := (Overload.takes_iff.mp ht).1
    have hops : c.operands tokens = o.operands tokens := by simp [Overload.operands, hblock]
    rw [hops] at hcc
    exact Overload.not_takesCount_of_countsApart hcounts hf.count hcc
  · exact Overload.not_takes_of_wordsApart hwords hblock hf ht
  · -- `o` is tried first and takes the line, so `c` is `o`, which is of the base dialect
    obtain ⟨rest, rfl⟩ := List.head?_eq_some_iff.mp hf.head
    obtain ⟨others, hlist⟩ := List.head?_eq_some_iff.mp hfirst
    have hfind := resolve_eq_ok_iff.mp hr
    rw [hlist, List.find?_cons, Overload.takes_of_isOpen hopen hf.count] at hfind
    obtain rfl : o = c := by simpa using hfind
    have := (List.mem_filter.mp hc).2
    simp [hb] at this

/-- **The frame of a base overload decides**: whatever the other operands became, the line means
an overload of the base dialect or nothing. -/
theorem isBase_of_framed {o c : Overload} {tokens : List String} (hmem : o ∈ table)
    (hb : o.isBase = true) (hf : o.Framed tokens) (hr : resolve tokens = .ok c) :
    c.isBase = true := by
  cases hbase : c.isBase with
  | true => rfl
  | false =>
    have hc : c ∈ beyondBase := List.mem_filter.mpr ⟨(of_resolve hr).1, by simp [hbase]⟩
    exact absurd hr (resolve_ne_of_framed hmem hb hf hc)

/-- A line that a base overload takes means a base overload. -/
theorem exists_resolve_isBase {o : Overload} {tokens : List String} (hmem : o ∈ table)
    (hb : o.isBase = true) (hh : tokens.head? = some o.mnemonic) (ht : o.takes tokens = true) :
    ∃ c, resolve tokens = .ok c ∧ c.isBase = true := by
  obtain ⟨c, hc⟩ := exists_resolve hmem hh ht
  exact ⟨c, hc, isBase_of_framed hmem hb (.of_takes hh ht) hc⟩

/-- All overloads of a block keyword are block constructs. -/
theorem isSome_block_of_keyword {m : String} {o : Overload} (hk : isBlockKeyword m = true)
    (ho : o ∈ overloads m) : o.block.isSome = true := by
  have htable : ∀ b ∈ blocks, ∀ c ∈ overloads b.mnemonic, c.block.isSome = true := by
    decide
  have hblocks : ∀ c ∈ table, c.block.isSome = true → c ∈ blocks := by decide +kernel
  obtain ⟨b, hb, hbs⟩ := List.any_eq_true.mp hk
  obtain ⟨hbt, rfl⟩ := mem_overloads_iff.mp hb
  exact htable b (hblocks b hbt hbs) o ho

end Instruction

end Mlog
