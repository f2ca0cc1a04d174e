import Mlog.Proofs.Block.Legible
import Mlog.Proofs.Compile.Conservation
import Mlog.Proofs.Compile.Scope
import Mlog.Proofs.Line.Token
import Mlog.Proofs.Reference.Place

/-!
# The variable of a loop and the constants

A line in a loop has its constants put in when it is read, and the variable of the loop when the
loop ends.  A reference to the variable is therefore bound to the elements of the loop only if the
constants leave it alone: they must not have a value for its name, and what they put behind it must
not lengthen it.  Then it is bound everywhere, in the texts that the line came from and in the token
where it stands, whatever the line expands to (`loop_variable_iff`).
-/
set_option autoImplicit false

namespace Mlog

/-! ## The token where a reference stands -/

namespace Line

open Reference

/-- Quiet characters are in one piece, together with what stands around them there. -/
theorem exists_piece_at {w : List Char} (hw : Quiet ' ' w) (hne : w ≠ []) (i e : Bool)
    (before after : List Char) :
    ∃ left right, left ++ w ++ right ∈ pieces ' ' i e (before ++ (w ++ after)) ∧
      left <:+ before ∧ right <+: after := by
  induction h : before.length using Nat.strongRecOn generalizing before i e with
  | ind n ih =>
    rcases read_or_cut i e before with ⟨place, hplace⟩ | ⟨u, e', tail, rfl, hu⟩
    · -- nothing divides the text before, so all of it is in the same piece
      obtain ⟨first, rest, tail, hpieces, rfl, -⟩ :=
        exists_pieces_eq_cons ' ' place.1 false after
      refine ⟨before, first, ?_, List.suffix_rfl, List.prefix_append _ _⟩
      rw [pieces_append_of_read hplace, pieces_append_quiet hw hne, hpieces, foldr_consFirst,
        foldr_consFirst, List.append_assoc]
      exact List.mem_cons_self
    · have hshorter : tail.length < n := by
        rw [← h, List.length_append, List.length_cons]
        omega
      obtain ⟨left, right, hmem, hleft, hright⟩ := ih _ hshorter false false tail rfl
      refine ⟨left, right, ?_, ?_, hright⟩
      · rw [List.append_assoc, List.cons_append, pieces_cut hu]
        exact List.mem_cons_of_mem _ hmem
      · exact hleft.trans ((List.suffix_cons _ _).trans (List.suffix_append _ _))

/-- A reference is in one token, together with what stands around it there. -/
theorem exists_token_at {name before after : String} {delimited : Bool} {ts : List String}
    (hname : isName delimited name = true)
    (h : tokens (before ++ written name delimited ++ after) = .ok ts) :
    ∃ left right, left ++ written name delimited ++ right ∈ ts ∧
      (∃ rest, before = rest ++ left) ∧ ∃ rest, after = right ++ rest := by
  obtain ⟨w, hw, -, href⟩ := @refers_written name delimited "" hname (Or.inr (by simp))
  obtain ⟨w', hw', -, hquiet⟩ := quiet_reference href
  obtain rfl := List.append_cancel_right hw'
  obtain ⟨-, rfl⟩ := tokens_eq_ok_iff.mp h
  obtain ⟨left, right, hmem, ⟨rest, hleft⟩, rest', hright⟩ :=
    exists_piece_at hquiet (List.cons_ne_nil _ _) false false before.toList after.toList
  refine ⟨String.ofList left, String.ofList right, ?_, ⟨String.ofList rest, ?_⟩,
    String.ofList rest', ?_⟩
  · refine List.mem_map.mpr ⟨left ++ '$' :: w ++ right, List.mem_filter.mpr ⟨?_, by simp⟩, ?_⟩
    · simpa only [String.toList_append, hw, List.append_assoc] using hmem
    · apply String.toList_injective
      simp [hw]
  · apply String.toList_injective
    simp [hleft]
  · apply String.toList_injective
    simp [hright]

end Line

/-! ## What becomes of it -/

namespace Instruction

/-- Templates have a slot for each operand but for the words among them. -/
theorem operand_of_mem : ∀ o ∈ table, templateLines o.expansion ≠ [] →
    o.block = none ∧ o.params.any Param.isVariadic = false ∧
      ∀ i < o.params.length, (o.params[i]?.bind Param.words?).isSome = true ∨
        .operand (i + 1) ∈ (templateLines o.expansion).flatten := by
  decide +kernel

/-- **No reference is lost when a line is expanded.** -/
theorem exists_mem_expand {tokens : List String} {o : Overload} (h : resolve tokens = .ok o)
    {token : String} (ht : token ∈ tokens) (hdollar : '$' ∈ token.toList) :
    ∃ line ∈ o.expand tokens, token ∈ line := by
  obtain ⟨hmem, hh, htakes⟩ := of_resolve h
  have hne : token ≠ o.mnemonic := by
    rintro rfl
    exact (plain_of_mem o hmem).1 hdollar
  cases hx : o.expansion with
  | asWritten => exact ⟨tokens, by simp [Overload.expand, hx, Expansion.apply], ht⟩
  | template lines =>
    have hlines : templateLines o.expansion ≠ [] := by
      rw [hx]
      rintro rfl
      exact (template_of_mem o hmem).1 hx
    obtain ⟨hblock, hvariadic, hslots⟩ := operand_of_mem o hmem hlines
    have hframed := Overload.Framed.of_takes hh htakes
    obtain ⟨ops, rfl⟩ := List.head?_eq_some_iff.mp hh
    obtain ⟨i, hget⟩ := List.getElem?_of_mem ((List.mem_cons.mp ht).resolve_left hne)
    have hoperand : (o.operands (o.mnemonic :: ops))[i]? = some token := by
      simp [Overload.operands, hblock, hget]
    have hlength : i < o.params.length := by
      have hmost := (Overload.le_of_takesCount hframed.count).2 o.params.length
        (by simp [Overload.most, hvariadic])
      have hcount := (List.getElem?_eq_some_iff.mp hoperand).1
      omega
    rcases hslots i hlength with hwords | hslot
    · -- a word of the instruction refers to nothing
      obtain ⟨ws, hws⟩ := Option.isSome_iff_exists.mp hwords
      obtain ⟨p, hp, hws⟩ := Option.bind_eq_some_iff.mp hws
      have hparam : o.paramAt? i = some p := by rw [Overload.paramAt?, hp]
      have hword := hframed.words i token p ws hoperand hparam hws
      exact absurd hdollar (dollar_not_mem_of_words hmem (List.mem_of_getElem? hp) hws hword)
    · rw [hx] at hslot
      obtain ⟨line, hline, hslot⟩ := List.mem_flatten.mp hslot
      refine ⟨line.map (Slot.fill (o.mnemonic :: ops)), ?_,
        List.mem_map.mpr ⟨.operand (i + 1), hslot, by simp [Slot.fill, hget]⟩⟩
      rw [Overload.expand, hx]
      exact List.mem_map.mpr ⟨line, hline, rfl⟩
  | eachOperand =>
    obtain ⟨ops, rfl⟩ := List.head?_eq_some_iff.mp hh
    refine ⟨[o.mnemonic, token], ?_, by simp⟩
    rw [Overload.expand, hx]
    exact List.mem_map.mpr ⟨token, (List.mem_cons.mp ht).resolve_left hne, rfl⟩
  | shorthand =>
    obtain ⟨output, thing, property, rfl, -, hshape, hname⟩ := shorthand_cases h hx
    rw [expand_shorthand hx (Shape.not_mem_of_isSensedName hname)]
    refine ⟨_, List.mem_singleton_self _, ?_⟩
    rcases List.mem_cons.mp ht with rfl | ht
    · exact List.mem_cons_self
    · rcases List.mem_cons.mp ht with rfl | ht
      · simp
      · -- the shorthand itself takes no references
        rw [List.mem_singleton.mp ht] at hdollar
        exact absurd hdollar (Shape.dollar_not_mem_of_isShorthand hshape)

end Instruction

namespace Compile

theorem exists_qualify (stack : BlockStack) (name : String) :
    ∃ front, stack.qualify name = front ++ name := by
  rcases stack.qualify_cases name with h | h
  · exact ⟨"", by rw [h, String.empty_append]⟩
  · exact ⟨_, h⟩

theorem exists_qualifyOperand (stack : BlockStack) (param : Option Param) (token : String) :
    ∃ front, qualifyOperand stack param token = front ++ token := by
  have hnamed : ∀ named : Bool,
      ∃ front, (if named then stack.qualify token else token) = front ++ token := by
    intro named
    cases named with
    | true => exact exists_qualify stack token
    | false => exact ⟨"", by simp⟩
  unfold qualifyOperand
  split
  · exact hnamed false
  · exact hnamed _

/-- A token of a line is still there when the scopes were put in front. -/
theorem exists_mem_scopedLine (stack : BlockStack) {line : List String} {token : String}
    (h : token ∈ line) : ∃ front, front ++ token ∈ scopedLine stack line := by
  unfold scopedLine
  split
  · next base hbase =>
    simp only [qualifyLine]
    generalize (if base.block.isSome = true then 0 else 1) = lead
    rw [← List.take_append_drop lead line] at h
    rcases List.mem_append.mp h with h | h
    · exact ⟨"", by simpa using Or.inl h⟩
    · obtain ⟨i, hi⟩ := List.getElem?_of_mem h
      obtain ⟨front, hfront⟩ := exists_qualifyOperand stack (base.paramAt? i) token
      refine ⟨front, List.mem_append_right _ (List.mem_map.mpr ⟨(token, i), ?_, hfront⟩)⟩
      exact List.mem_zipIdx_iff_getElem?.mpr hi
  · exact ⟨"", by simpa using h⟩

/-- **No reference of a line is lost**: a token that holds one is in what the line becomes, with
scopes in front of it at most. -/
theorem Entry.exists_mem_statements {e : Entry} (hposted : e.statements ≠ []) {token : String}
    (ht : token ∈ e.tokens) (hdollar : '$' ∈ token.toList) :
    ∃ s ∈ e.statements, ∃ front, front ++ token ∈ s.tokens := by
  unfold statements at hposted ⊢
  cases hl : labelOf? e.tokens with
  | some label =>
    rw [tokens_of_labelOf? hl, List.mem_singleton] at ht
    obtain ⟨front, hfront⟩ := exists_qualify e.stack label
    refine ⟨_, List.mem_singleton_self _, front, ?_⟩
    rw [ht, hfront, String.append_assoc]
    exact List.mem_singleton_self _
  | none =>
    cases hr : Instruction.resolve e.tokens with
    | error r =>
      rw [hl, hr] at hposted
      exact absurd rfl hposted
    | ok o =>
      cases hlow : lower e.stack o e.tokens e.provenance with
      | error error =>
        simp only [hl, hr, hlow] at hposted
        exact absurd rfl hposted
      | ok lines =>
        obtain ⟨line, hline, hmem⟩ := Instruction.exists_mem_expand hr ht hdollar
        obtain ⟨front, hfront⟩ := exists_mem_scopedLine e.stack hmem
        refine ⟨⟨scopedLine e.stack line, e.provenance⟩, ?_, front, hfront⟩
        simp only [hlow, lower_eq hlow]
        exact List.mem_map.mpr ⟨line, hline, rfl⟩

end Compile

/-! ## Lines in a loop -/

/-- The block lets all statements through. -/
def Block.isOpen : Block → Bool
  | scope .. => true
  | loop .. => false
  | conditional enabled _ => enabled

theorem BlockStack.pass_open {inner : BlockStack} (h : ∀ b ∈ inner, b.isOpen = true)
    (outer : BlockStack) (statements : List Statement) :
    pass (inner ++ outer) statements =
      (inner ++ (pass outer statements).1, (pass outer statements).2) := by
  induction inner with
  | nil => rfl
  | cons b inner ih =>
    obtain ⟨hb, hinner⟩ := List.forall_mem_cons.mp h
    have hpass : b.pass statements = (b, statements) := by
      cases b with
      | scope => rfl
      | loop => cases hb
      | conditional enabled =>
        obtain rfl : enabled = true := hb
        rfl
    rw [List.cons_append, pass, hpass]
    simp only [ih hinner, List.cons_append]

namespace Compile

open Reference

/-- The variable of a loop wins where a line refers to it: the constants leave the reference in
place, and the copy of the line for a value has the value there, in the texts that it came from and
in the token where the reference stands. -/
structure Wins (constants : Constants) (e : Entry) {name text : String}
    (p : Reference.Place name text) (value : String) : Prop where
  stays : (substitute (constantText constants) e.stack.loopVariables text).text =
    fill (constantText constants) p.before ++ written name p.delimited ++
      fill (constantText constants) p.after
  cleaned : ∀ s ∈ e.statements, (s.bind name value).provenance.cleaned =
    bind name value p.before ++ value ++ bind name value p.after
  modified : ∀ s ∈ e.statements, (s.bind name value).provenance.modified =
    bind name value (fill (constantText constants) p.before) ++ value ++
      bind name value (fill (constantText constants) p.after)
  token : ∃ s ∈ e.statements, ∃ front left right,
    front ++ left ++ written name p.delimited ++ right ∈ s.tokens ∧
    (∃ rest, fill (constantText constants) p.before = rest ++ left) ∧
    (∃ rest, fill (constantText constants) p.after = right ++ rest) ∧
    bind name value (front ++ left ++ written name p.delimited ++ right) =
      bind name value (front ++ left) ++ value ++ bind name value right

theorem ends_of_append {delimited : Bool} {right rest : String}
    (h : Ends delimited (right ++ rest)) : Ends delimited right := by
  refine h.imp_right fun h c hc => h c ?_
  rw [String.toList_append]
  cases hright : right.toList with
  | nil =>
    rw [hright] at hc
    cases hc
  | cons d ds =>
    rw [hright] at hc
    exact hc

/-- **When the variable of a loop wins**, for a line whose statements wait in the loop and are
released once for each element: exactly where the constants have no value for the name, and put no
word character right behind a bare reference to it. -/
theorem loop_variable_iff {settings : Settings} {location opened : Location}
    {source text name : String} {elements : List String} {buffer : List Statement}
    {inner outer : BlockStack} {e : Entry} (hinner : ∀ b ∈ inner, b.isOpen = true)
    (he : entryOf? settings location source (inner ++ .loop name elements buffer opened :: outer)
      text = some e)
    (hposted : e.statements ≠ []) :
    let stack := inner ++ .loop name elements buffer opened :: outer
    (∀ out, (part settings location source stack text).result = .ok out → out = [] ∧
      (part settings location source stack text).stack =
        inner ++ .loop name elements (buffer ++ e.statements) opened :: outer) ∧
    (∀ later, (Block.loop name elements (buffer ++ e.statements ++ later) opened).release =
      elements.flatMap fun value => buffer.map (Statement.bind name value) ++
        e.statements.map (Statement.bind name value) ++ later.map (Statement.bind name value)) ∧
    ∀ value ∈ elements, '$' ∉ value.toList → ∀ p : Reference.Place name text,
      Wins settings.constants e p value ↔ p.Safe (constantText settings.constants) := by
  intro stack
  obtain ⟨htokens, hcleaned, hmodified⟩ := of_entryOf? he
  refine ⟨fun out hout => ?_, fun later => ?_, fun value hvalue hplain p => ?_⟩
  · rw [part_of_entry he] at hout ⊢
    have hloop : BlockStack.pass (.loop name elements buffer opened :: outer) e.statements =
        (.loop name elements (buffer ++ e.statements) opened :: outer, []) := by
      simp only [BlockStack.pass, Block.pass, BlockStack.pass_nil]
    have hpass := e.pass_of_compile settings.options hout
    rw [entryOf?_stack he, BlockStack.pass_open hinner, hloop] at hpass
    obtain ⟨hstack, hout⟩ := Prod.mk.inj hpass
    exact ⟨hout.symm, hstack.symm⟩
  · simp only [Block.release, List.map_append]
  · have hprovenance : ∀ s ∈ e.statements, s.provenance = e.provenance :=
      fun s hs => Entry.provenance_of_mem_statements hs
    rw [p.safe_iff (constantText settings.constants) hplain]
    constructor
    · intro h
      obtain ⟨s, hs⟩ := List.exists_mem_of_ne_nil _ hposted
      refine ⟨h.stays, ?_⟩
      rw [← h.modified s hs, ← hmodified, ← hprovenance s hs]
      rfl
    · rintro ⟨hstays, hbound⟩
      have hends := ((p.safe_iff _ hplain).mpr ⟨hstays, hbound⟩).2
      refine ⟨hstays, fun s hs => ?_, fun s hs => ?_, ?_⟩
      · rw [← p.bind_text, ← hcleaned, ← hprovenance s hs]
        rfl
      · rw [← hbound, ← hmodified, ← hprovenance s hs]
        rfl
      · unfold statementTokens at htokens
        rw [show fill (constantText settings.constants) text = _ from hstays] at htokens
        obtain ⟨left, right, hmem, hleft, rest, hright⟩ := Line.exists_token_at p.isName htokens
        have hdollar : '$' ∈ (left ++ written name p.delimited ++ right).toList := by
          obtain ⟨w, hw, -⟩ := refers_written p.isName p.ends
          simp [hw]
        obtain ⟨s, hs, front, hfront⟩ := e.exists_mem_statements hposted hmem hdollar
        refine ⟨s, hs, front, left, right, ?_, hleft, ⟨rest, hright⟩, ?_⟩
        · simpa only [String.append_assoc] using hfront
        · rw [hright] at hends
          exact bind_written p.isName (ends_of_append hends) value (front ++ left)

/-- A delimited reference with a constant behind it. -/
theorem loop_variable_iff_delimited :
    let settings : Settings := { constants := Dict.empty.insert "A" (.string "x") }
    let loop := Block.loop "v" ["a", "b"] [] ⟨"main.mlogx", 1⟩
    let p : Reference.Place "v" "print $(v)$A" :=
      ⟨"print ", true, "$A", by decide, by decide, Or.inl rfl⟩
    ∃ e, entryOf? settings ⟨"main.mlogx", 2⟩ "print $(v)$A" [loop] "print $(v)$A" = some e ∧
      Wins settings.constants e p "a" := by
  intro settings loop p
  have hposted : (entryOf? settings ⟨"main.mlogx", 2⟩ "print $(v)$A" [loop] "print $(v)$A").map
      (fun e => e.statements.length) = some 1 := by
    decide +kernel
  cases he : entryOf? settings ⟨"main.mlogx", 2⟩ "print $(v)$A" [loop] "print $(v)$A" with
  | none =>
    rw [he] at hposted
    cases hposted
  | some e =>
    rw [he] at hposted
    have hne : e.statements ≠ [] := by
      intro hnil
      rw [Option.map_some, hnil] at hposted
      cases hposted
    have hinner : ∀ b ∈ ([] : BlockStack), b.isOpen = true := by decide
    have hwins := (loop_variable_iff hinner he hne).2.2 "a" (by decide) (by decide) p
    exact ⟨e, rfl, hwins.mpr (by decide +kernel)⟩

/-- A constant takes the place of the variable of a loop with its name, and the value of another
one lengthens a bare reference to it. -/
theorem loop_variable_constant :
    let copies (constants : Constants) (source : String) :=
      (unit { constants } "main.mlogx" source {}).toOption.map fun o =>
        o.statements.map fun s => (s.tokens, s.provenance.cleaned)
    copies (Dict.empty.insert "i" (.string "5")) "&for i of a b \x7b\nprint $i\n\x7d" =
        some [(["print", "5"], "print a"), (["print", "5"], "print b")] ∧
      copies (Dict.empty.insert "A" (.string "x")) "&for i of a b \x7b\nprint $i$A\n\x7d" =
        some [(["print", "$ix"], "print a$A"), (["print", "$ix"], "print b$A")] := by
  decide +kernel

end Compile

end Mlog
