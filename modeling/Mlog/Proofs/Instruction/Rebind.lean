import Mlog.Proofs.Compile.BaseDialect

/-!
# Instructions before and after a variable is bound

A line in a loop is resolved and expanded before the variable of the loop has a value.  If the line
with the value in place is resolved and expanded instead, the same lines come out (`expand_bind`).
The overload may be another one, but then both stay as they are written: an extended overload keeps
the line to itself, since binding a variable changes neither the number of operands nor the words
of the line.
-/
set_option autoImplicit false

namespace Mlog

theorem Shape.dollar_not_mem_of_isShorthand {cs : List Char} (h : isShorthand cs = true) :
    '$' ∉ cs := by
  unfold isShorthand at h
  cases hd : dropOne '@' cs with
  | nil =>
    rw [hd] at h
    cases h
  | cons c rest =>
    simp only [hd, Bool.and_eq_true] at h
    obtain ⟨hc, h⟩ := h
    have hstart : '$' ≠ c := by
      rintro rfl
      exact absurd hc (by decide)
    have hrest : '$' ∉ rest := by
      rw [← List.takeWhile_append_dropWhile (p := Text.isHyphenWord) (l := rest)]
      split at h
      · next property hproperty =>
        obtain ⟨d, ds, hd, hds, hcs⟩ := isSensedName_cases h
        have hd' : '$' ≠ d := by
          rintro rfl
          exact absurd hd (by decide)
        have hword : ∀ w : List Char, (∀ e ∈ w, Text.isHyphenWord e = true) → '$' ∉ w :=
          fun w hw hmem => absurd (hw '$' hmem) (by decide)
        have hname : '$' ∉ property := by
          rcases hcs with rfl | rfl <;> simp [hd', hword ds hds]
        rw [hproperty, List.mem_append, List.mem_cons, not_or, not_or]
        refine ⟨hword _ fun e he => ?_, by decide, hname⟩
        exact List.all_eq_true.mp List.all_takeWhile e he
      · cases h
    rcases eq_dropOne '@' cs with hcs | hcs
    · rw [hcs, hd]
      simp [hstart, hrest]
    · rw [hcs, hd]
      simp [hstart, hrest]

namespace Instruction

section Bind

variable {o : Overload} {tokens : List String} (name value : String)

theorem fill_bind {slot : Slot} (h : '$' ∉ slot.text.toList) (tokens : List String) :
    slot.fill (tokens.map (Reference.bind name value)) =
      Reference.bind name value (slot.fill tokens) := by
  cases slot with
  | word text => exact (Reference.bind_of_not_mem h name value).symm
  | operand n =>
    rw [Slot.fill, Slot.fill, List.getElem?_map]
    cases tokens[n]? with
    | none => exact (Reference.bind_of_not_mem h name value).symm
    | some token => rfl

/-- An overload expands a line with a variable bound to its expansion with the variable bound. -/
theorem expand_bind_self (h : resolve tokens = .ok o) :
    o.expand (tokens.map (Reference.bind name value)) =
      (o.expand tokens).map (·.map (Reference.bind name value)) := by
  obtain ⟨hmem, hh, -⟩ := of_resolve h
  have hmnemonic := Reference.bind_of_not_mem (plain_of_mem o hmem).1 name value
  cases hx : o.expansion with
  | asWritten => simp [Overload.expand, hx, Expansion.apply]
  | template lines =>
    have hslots := (template_of_mem o hmem).2.2
    rw [hx] at hslots
    simp only [Overload.expand, hx, Expansion.apply, List.map_map]
    refine List.map_congr_left fun line hline => ?_
    rw [Function.comp_apply, List.map_map]
    refine List.map_congr_left fun slot hslot => ?_
    exact fill_bind name value (hslots line hline slot hslot) tokens
  | eachOperand =>
    obtain ⟨ops, rfl⟩ := List.head?_eq_some_iff.mp hh
    simp [Overload.expand, hx, Expansion.apply, hmnemonic]
  | shorthand =>
    obtain ⟨output, thing, property, rfl, -, hshape, hname⟩ := shorthand_cases h hx
    have hdot := Shape.not_mem_of_isSensedName hname
    have hplain := Shape.dollar_not_mem_of_isShorthand hshape
    have hthing : '$' ∉ thing.toList := fun hmem => hplain (by simp [hmem])
    have hproperty : '$' ∉ property.toList := fun hmem => hplain (by simp [hmem])
    have hsensed : '$' ∉ (sensedProperty property).toList := by
      unfold sensedProperty
      split
      · exact hproperty
      · simp [hproperty]
    rw [List.map_cons, List.map_cons, List.map_singleton, Reference.bind_of_not_mem hplain,
      Reference.bind_of_not_mem (show '$' ∉ "sensor".toList by decide), expand_shorthand hx hdot,
      expand_shorthand hx hdot]
    simp [Reference.bind_of_not_mem hthing, Reference.bind_of_not_mem hsensed,
      Reference.bind_of_not_mem (show '$' ∉ "sensor".toList by decide)]

/-- Every extended overload is kept from every other one that shares its mnemonic: their counts or
words differ, or the other one comes first and takes all it could. -/
theorem apart_of_mem : ∀ e ∈ beyondBase, ∀ c ∈ overloads e.mnemonic, e.block = none → c ≠ e →
    e.block = c.block ∧ (e.countsApart c = true ∨ e.wordsApart c = true ∨
      c.isOpen = true ∧ (overloads c.mnemonic).head? = some c) := by
  decide

/-- **Binding a variable keeps an extended line extended**: the line with the value means the same
overload, or both lines are of the base dialect. -/
theorem resolve_bind {c : Overload} (h : resolve tokens = .ok o) (hblock : o.block = none)
    (hc : resolve (tokens.map (Reference.bind name value)) = .ok c) :
    c = o ∨ o.isBase = true ∧ c.isBase = true := by
  obtain ⟨hmem, hh, ht⟩ := of_resolve h
  have hframed := Overload.Framed.of_takes hh ht
  have hbound := framed_bind hmem hblock hframed name value
  cases hb : o.isBase with
  | true => exact Or.inr ⟨rfl, isBase_of_framed hmem hb hbound hc⟩
  | false =>
    refine Or.inl (Classical.byContradiction fun hne => ?_)
    obtain ⟨hcmem, hch, hct⟩ := of_resolve hc
    have hm : c.mnemonic = o.mnemonic := Option.some.inj (hch.symm.trans hbound.head)
    have hbeyond : o ∈ beyondBase := List.mem_filter.mpr ⟨hmem, by simp [hb]⟩
    obtain ⟨hblocks, hapart⟩ :=
      apart_of_mem o hbeyond c (mem_overloads_iff.mpr ⟨hcmem, hm⟩) hblock hne
    have hcount := (Overload.takes_iff.mp hct).1
    rcases hapart with hcounts | hwords | ⟨hopen, hfirst⟩
    · have hops : ∀ line, c.operands line = o.operands line := by
        intro line
        simp [Overload.operands, hblocks]
      rw [hops] at hcount
      exact Overload.not_takesCount_of_countsApart hcounts hbound.count hcount
    · exact Overload.not_takes_of_wordsApart hwords hblocks hbound hct
    · -- `c` takes any line with so many operands, so it took the line before it was bound
      have hlength : (c.operands (tokens.map (Reference.bind name value))).length =
          (c.operands tokens).length := by
        simp [Overload.operands, ← hblocks, hblock]
      rw [hlength] at hcount
      have hctakes := Overload.takes_of_isOpen hopen hcount
      obtain ⟨ops, rfl⟩ := List.head?_eq_some_iff.mp hh
      obtain ⟨others, hlist⟩ := List.head?_eq_some_iff.mp hfirst
      have hfind := resolve_eq_ok_iff.mp h
      rw [← hm, hlist, List.find?_cons, hm, hctakes] at hfind
      exact hne (by simpa using hfind)

/-- **Expanding and binding commute.** -/
theorem expand_bind {c : Overload} (h : resolve tokens = .ok o) (hblock : o.block = none)
    (hc : resolve (tokens.map (Reference.bind name value)) = .ok c) :
    c.expand (tokens.map (Reference.bind name value)) =
      (o.expand tokens).map (·.map (Reference.bind name value)) := by
  rcases resolve_bind name value h hblock hc with rfl | ⟨hbase, hcbase⟩
  · exact expand_bind_self name value h
  · simp [Overload.expand, (Overload.isBase_iff.mp hbase).1, (Overload.isBase_iff.mp hcbase).1,
      Expansion.apply]

end Bind

end Instruction

end Mlog
