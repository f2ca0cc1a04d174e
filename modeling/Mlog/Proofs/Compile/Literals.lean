import Mlog.Proofs.Compile.WrittenTypes
import Mlog.Proofs.Line.Division

/-!
# String literals as operands

A token is a string literal for the division of lines if it begins with a quote and ends with the
next quote that counts (`IsLiteral`).  The types know strings by another rule: quotes at both ends
and none between.  The two agree on a literal exactly if it holds no escaped quote, that is, if it
has two quotes in all.  Any other literal looks like a variable, may be written to, is recorded when
it is read, and gets the open scopes in front (`literal_iff`).
-/
set_option autoImplicit false

namespace Mlog

/-! ## Literals -/

namespace Line

/-- A token that begins with a quote and whose only quotes that count are its first and its last
character. -/
structure IsLiteral (token : String) : Prop where
  opens : token.toList.head? = some '"'
  quotes : ∀ column, column ∈ quoteColumns token.toList ↔
    column = 1 ∨ column = token.toList.length

theorem mem_quoteColumns {text : List Char} {column : Nat} (h : column ∈ quoteColumns text) :
    ∃ i, column = i + 1 ∧ text[i]? = some '"' := by
  obtain ⟨i, hi, rfl⟩ := List.mem_map.mp h
  have hquote := (Bool.and_eq_true_iff.mp (List.mem_filter.mp hi).2).1
  exact ⟨i, rfl, by simpa using hquote⟩

theorem whole_of_mem_tokens {line token : String} {ts : List String} (h : tokens line = .ok ts)
    (ht : token ∈ ts) : Whole ' ' token.toList := by
  cases hsplit : split ' ' line.toList with
  | error e =>
    rw [tokens, hsplit] at h
    cases h
  | ok parts =>
    rw [tokens, hsplit] at h
    obtain rfl := Except.ok.inj h
    obtain ⟨part, hpart, rfl⟩ := List.mem_map.mp ht
    obtain ⟨hclosed, hparts⟩ := (split_eq_ok_iff (by decide)).mp hsplit
    rw [String.toList_ofList]
    exact whole_of_divides (by decide) (by decide) hparts hclosed part hpart

/-- A literal that is closed has a quote at each end. -/
theorem IsLiteral.exists_inner {token : String} (h : IsLiteral token)
    (hclosed : inString token.toList = false) :
    ∃ inner, token.toList = '"' :: (inner ++ ['"']) := by
  obtain ⟨rest, hrest⟩ := List.head?_eq_some_iff.mp h.opens
  have hne : rest ≠ [] := by
    rintro rfl
    rw [hrest] at hclosed
    cases hclosed
  obtain ⟨inner, c, rfl⟩ : ∃ inner c, rest = inner ++ [c] :=
    ⟨_, _, (List.dropLast_concat_getLast hne).symm⟩
  obtain ⟨i, hi, hquote⟩ := mem_quoteColumns ((h.quotes token.toList.length).mpr (Or.inr rfl))
  rw [hrest] at hi hquote
  obtain rfl : i = inner.length + 1 := by simpa using hi.symm
  obtain rfl : c = '"' := by simpa using hquote
  exact ⟨inner, hrest⟩

end Line

theorem Shape.isString_iff (inner : List Char) :
    isString ('"' :: (inner ++ ['"'])) = true ↔ ('"' :: (inner ++ ['"'])).count '"' = 2 := by
  have hcount : ('"' :: (inner ++ ['"'])).count '"' = inner.count '"' + 2 := by simp
  rw [hcount, isString, beq_iff_eq, Nat.add_eq_right, List.count_eq_zero]
  constructor
  · intro h hmem
    obtain ⟨before, after, rfl, hbefore⟩ := List.eq_append_cons_of_mem hmem
    rw [List.append_assoc, List.dropWhile_append_of_pos
      (fun c hc => by simpa using fun heq : c = '"' => hbefore (heq ▸ hc))] at h
    simp at h
  · intro h
    rw [List.dropWhile_append_of_pos (fun c hc => by simpa using fun heq : c = '"' => h (heq ▸ hc))]
    rfl

/-! ## Tokens that begin with a quote -/

namespace Ty

variable {token : String} {rest : List Char}

/-- Only the type of strings may recognise a token that begins with a quote. -/
theorem eq_string_of_recognises {ty : Ty} (h : token.toList = '"' :: rest)
    (hr : ty.recognises token = true) : ty = .string := by
  refine Classical.byContradiction fun hstring => ?_
  have hnot : ty.recognises token = false := by
    cases hty : ty.isNameShaped with
    | false => exact not_recognises_of_front (Or.inr rfl) h hty fun heq => absurd heq hstring
    | true =>
      cases ty with
      | jumpAddress | senseShorthand =>
        rw [recognises, h]
        rfl
      | _ => cases hty
  rw [hnot] at hr
  cases hr

theorem guess_of_quote (h : token.toList = '"' :: rest) :
    guess token = if Shape.isString token.toList then .string else .variable := by
  have honly : guess token ≠ .variable → guess token = .string := fun hne =>
    eq_string_of_recognises h (recognises_of_guess rfl hne).2
  split
  · next hstring => exact honly (@guess_ne_variable token .string rfl hstring)
  · next hstring =>
    refine Classical.byContradiction fun hne => ?_
    have hlooks := honly hne
    exact hstring (recognises_of_guess hlooks (by decide)).2

/-- A token that begins with a quote is a variable at every type, unless it looks like a string. -/
theorem isVariable_of_quote (h : token.toList = '"' :: rest) (ty : Ty) :
    Overload.isVariable ty token = !Shape.isString token.toList := by
  rw [Overload.isVariable, guess_of_quote h]
  cases hstring : Shape.isString token.toList with
  | true => simp
  | false =>
    have hnot : ty.recognises token = false := by
      cases hr : ty.recognises token with
      | false => rfl
      | true =>
        obtain rfl := eq_string_of_recognises h hr
        rw [recognises, hstring] at hr
        cases hr
    simp [hnot]

end Ty

/-! ## Literals as operands -/

namespace Compile

open Line (IsLiteral)

section Operand

variable {token : String} {rest : List Char} {c : Overload} {p : Param}

/-- An overload records a token that begins with a quote wherever it reads a value, unless the token
looks like a string. -/
theorem mem_usages_iff (h : token.toList = '"' :: rest) {tokens : List String} {ty : Ty} :
    (token, ty) ∈ c.usages tokens ↔
      Shape.isString token.toList = false ∧ ty ≠ .jumpAddress ∧
        ∃ p variadic, (token, p) ∈ c.bind tokens ∧ p.form = .value ty false variadic := by
  have hname : token ≠ "_" := by
    rintro rfl
    cases h
  unfold Overload.usages
  rw [List.mem_filterMap]
  constructor
  · rintro ⟨⟨token', p⟩, hbound, hread⟩
    cases hform : p.form with
    | keyword => simp [hform] at hread
    | value ty' written variadic =>
      cases written with
      | true => simp [hform] at hread
      | false =>
        simp only [hform] at hread
        split at hread
        · next hvariable =>
          obtain ⟨rfl, rfl⟩ := Prod.mk.inj (Option.some.inj hread)
          simp only [Bool.and_eq_true, bne_iff_ne, Ty.isVariable_of_quote h,
            Bool.not_eq_true'] at hvariable
          exact ⟨hvariable.2, hvariable.1.1, p, variadic, hbound, hform⟩
        · cases hread
  · rintro ⟨hstring, hjump, p, variadic, hbound, hform⟩
    refine ⟨(token, p), hbound, ?_⟩
    simp [hform, hjump, hname, Ty.isVariable_of_quote h, hstring]

/-- No keyword begins with a quote. -/
theorem front_of_keyword : ∀ c ∈ Instruction.table, ∀ p ∈ c.params, p.form = .keyword →
    p.name.front? ≠ some '"' := by
  decide +kernel

/-- A token that begins with a quote stands at a value, and not at a label. -/
theorem ty_of_takes_quote (h : token.toList = '"' :: rest) (hmem : c ∈ Instruction.table)
    (hp : p ∈ c.params) (ht : p.takes token = true) :
    ∃ ty, p.ty? = some ty ∧ ty ≠ .jumpAddress := by
  obtain ⟨name, form, optional⟩ := p
  cases form with
  | keyword =>
    obtain rfl : token = name := by simpa [Param.takes] using ht
    exact absurd (by rw [String.front?_eq, h]; rfl) (front_of_keyword c hmem _ hp rfl)
  | value ty written variadic =>
    refine ⟨ty, rfl, ?_⟩
    rintro rfl
    cases written with
    | true => exact absurd (ty_of_isWritten c hmem _ hp rfl) Bool.false_ne_true
    | false =>
      have htarget := (takes_jumpAddress_iff.mp ht).2
      rw [h] at htarget
      cases htarget

end Operand

/-- A token that begins with a quote is no reserved name, and scopes change it. -/
theorem qualify_ne_of_quote {token : String} {rest : List Char} (h : token.toList = '"' :: rest)
    {stack : BlockStack} (hscopes : stack.scopes ≠ []) : stack.qualify token ≠ token := by
  have htakes : takesScope token = true := by simp [takesScope, h]
  intro heq
  have hlist := congrArg String.toList heq
  rw [BlockStack.qualify_of_takesScope htakes hscopes, BlockStack.toList_scoped, h] at hlist
  cases hlist

/-- **String literals are operands of their own only without escaped quotes.**  A token that is a
string literal where lines are divided looks like a string exactly if it has two quotes in all.
Exactly then no parameter takes it to be written, no overload records it as a variable that is read,
and no base instruction has scopes put in front of it. -/
theorem literal_iff {line token : String} {ts : List String} (h : Line.tokens line = .ok ts)
    (ht : token ∈ ts) (hl : IsLiteral token) :
    (Ty.guess token = .string ↔ token.toList.count '"' = 2) ∧
    (∀ p : Param, p.isWritten = true → (p.takes token = false ↔ token.toList.count '"' = 2)) ∧
    (∀ (c : Overload) (tokens : List String) (ty : Ty), (token, ty) ∈ c.usages tokens ↔
      token.toList.count '"' ≠ 2 ∧ ty ≠ .jumpAddress ∧
        ∃ p variadic, (token, p) ∈ c.bind tokens ∧ p.form = .value ty false variadic) ∧
    ∀ (stack : BlockStack) (tokens : List String) (c : Overload) (i : Nat),
      Instruction.resolve tokens = .ok c → c.expansion = .asWritten → c.block = none →
        (c.operands tokens)[i]? = some token → stack.scopes ≠ [] →
          ((c.operands (qualifyLine stack c tokens))[i]? = some token ↔
            token.toList.count '"' = 2) := by
  obtain ⟨inner, hinner⟩ := hl.exists_inner (Line.whole_of_mem_tokens h ht).closed
  have hstring : Shape.isString token.toList = true ↔ token.toList.count '"' = 2 := by
    rw [hinner]
    exact Shape.isString_iff inner
  refine ⟨?_, ?_, ?_, ?_⟩
  · rw [Ty.guess_of_quote hinner, ← hstring]
    cases Shape.isString token.toList <;> simp
  · intro p hw
    rw [takes_of_isWritten hw, Ty.guess_of_quote hinner, ← hstring]
    cases Shape.isString token.toList <;> simp
  · intro c tokens ty
    rw [mem_usages_iff hinner, ← Bool.not_eq_true, hstring]
  · intro stack tokens c i hr hx hb htoken hscopes
    obtain ⟨hmem, hh, htakes⟩ := Instruction.of_resolve hr
    obtain ⟨ops, rfl⟩ := List.head?_eq_some_iff.mp hh
    obtain ⟨p, hp⟩ := Overload.exists_paramAt? htakes htoken
    have hfits := (Overload.takes_iff.mp htakes).2 i token p htoken hp
    obtain ⟨ty, hty, hjump⟩ := ty_of_takes_quote hinner hmem (Overload.paramAt?_mem hp) hfits
    rw [Overload.operands_eq_tail hb, List.tail_cons] at htoken
    rw [Overload.operands_eq_tail hb, getElem?_qualifyLine hb, htoken, hp, Option.map_some,
      Option.some.injEq, qualifyOperand_value hty hjump, Ty.isVariable_of_quote hinner, ← hstring]
    cases Shape.isString token.toList with
    | true => simp
    | false => simpa using qualify_ne_of_quote hinner hscopes

/-- A literal with a space in it is a string wherever it stands. -/
theorem literal_iff_greeting :
    Line.tokens "print \"hello world\"" = .ok ["print", "\"hello world\""] ∧
      Ty.guess "\"hello world\"" = .string := by
  have htokens : Line.tokens "print \"hello world\"" = .ok ["print", "\"hello world\""] := by
    decide +kernel
  have hliteral : IsLiteral "\"hello world\"" := by
    have hcolumns : Line.quoteColumns "\"hello world\"".toList = [1, 13] := by decide +kernel
    exact ⟨by decide, fun column => by rw [hcolumns]; simp⟩
  exact ⟨htokens, (literal_iff htokens (by simp) hliteral).1.mpr (by decide)⟩

/-- A literal with an escaped quote looks like a variable: it may be written, is recorded when it
is read, and gets the scopes in front. -/
theorem literal_escaped_quote :
    Line.tokens "print \"a\\\"b\"" = .ok ["print", "\"a\\\"b\""] ∧
      IsLiteral "\"a\\\"b\"" ∧ Ty.guess "\"a\\\"b\"" = .variable ∧
        (∃ c, Instruction.resolve ["set", "\"a\\\"b\"", "1"] = .ok c ∧
          c.definitions ["set", "\"a\\\"b\"", "1"] = [("\"a\\\"b\"", .number)]) ∧
          ∃ c, Instruction.resolve ["print", "\"a\\\"b\""] = .ok c ∧
            c.usages ["print", "\"a\\\"b\""] = [("\"a\\\"b\"", .any)] ∧
              qualifyLine [.scope "n" ⟨"main.mlogx", 1⟩] c ["print", "\"a\\\"b\""] =
                ["print", "_n_\"a\\\"b\""] := by
  have hcolumns : Line.quoteColumns "\"a\\\"b\"".toList = [1, 6] := by decide +kernel
  have hset : ∃ c ∈ (Instruction.overloads "set").find? (·.takes ["set", "\"a\\\"b\"", "1"]),
      c.definitions ["set", "\"a\\\"b\"", "1"] = [("\"a\\\"b\"", .number)] := by
    decide +kernel
  have hprint : ∃ c ∈ (Instruction.overloads "print").find? (·.takes ["print", "\"a\\\"b\""]),
      c.usages ["print", "\"a\\\"b\""] = [("\"a\\\"b\"", .any)] ∧
        qualifyLine [.scope "n" ⟨"main.mlogx", 1⟩] c ["print", "\"a\\\"b\""] =
          ["print", "_n_\"a\\\"b\""] := by
    decide +kernel
  refine ⟨by decide +kernel, ⟨by decide, fun column => ?_⟩, by decide +kernel, ?_, ?_⟩
  · rw [hcolumns]
    simp
  · obtain ⟨c, hc, hdefinitions⟩ := hset
    exact ⟨c, Instruction.resolve_eq_ok_iff.mpr hc, hdefinitions⟩
  · obtain ⟨c, hc, hrest⟩ := hprint
    exact ⟨c, Instruction.resolve_eq_ok_iff.mpr hc, hrest⟩

end Compile

end Mlog
