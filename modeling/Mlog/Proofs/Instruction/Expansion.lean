import Mlog.Proofs.Instruction.Fit

/-!
# What expansions mean

An extended instruction expands to lines that have to be base instructions.  Most of the argument
is about the table and not about tokens: `Slot.fits` compares a slot of a template with a
parameter of the instruction that the template writes, and a computation over the table finds for
each template an overload that fits (`templatesServed_of_mem`).  `resolve_template` turns this into
a fact about every line that the table takes.

The shorthand `thing.property` is the exception, and has a file of its own.
-/
set_option autoImplicit false

namespace Mlog

/-! ## Lines by position

Most overloads are plain: no operand may be left out and none is repeated.  For them parameters
and operands pair off. -/

namespace Overload

/-- An instruction whose parameters are all required and none variadic. -/
def isPlain (o : Overload) : Bool :=
  o.block = none && o.params.all fun p => !p.optional && !p.isVariadic

theorem takesCount_of_isPlain {o : Overload} (h : o.isPlain = true) (n : Nat) :
    o.takesCount n = true ↔ n = o.params.length := by
  simp only [isPlain, Bool.and_eq_true, decide_eq_true_eq, List.all_eq_true, Bool.not_eq_true'] at h
  have hleast : o.least = o.params.length := by
    unfold least
    rw [List.filter_eq_self.mpr fun p hp => by simp [(h.2 p hp).1]]
  have hmost : o.most = some o.params.length := by
    have hnone : ¬ o.params.any Param.isVariadic = true := by
      intro hany
      obtain ⟨p, hp, hv⟩ := List.any_eq_true.mp hany
      rw [(h.2 p hp).2] at hv
      exact absurd hv (by simp)
    simp [most, hnone]
  simp only [takesCount, hleast, hmost, Option.all_some, Bool.and_eq_true, decide_eq_true_eq]
  omega

theorem block_of_isPlain {o : Overload} (h : o.isPlain = true) : o.block = none := by
  simp only [isPlain, Bool.and_eq_true, decide_eq_true_eq] at h
  exact h.1

/-- A plain overload takes a line when each parameter takes the operand across from it. -/
theorem takes_iff_of_isPlain {o : Overload} (h : o.isPlain = true) (m : String)
    (ops : List String) :
    o.takes (m :: ops) = true ↔
      ops.length = o.params.length ∧ ∀ pt ∈ o.params.zip ops, pt.1.takes pt.2 = true := by
  have hops : o.operands (m :: ops) = ops := operands_eq_tail (block_of_isPlain h) _
  rw [takes_iff, hops, takesCount_of_isPlain h]
  refine and_congr_right fun hlen => ?_
  constructor
  · rintro hp ⟨p, t⟩ hmem
    obtain ⟨i, hi⟩ := List.mem_iff_getElem?.mp hmem
    obtain ⟨hpi, hti⟩ := List.getElem?_zip_eq_some.mp hi
    exact hp i t p hti (by simp [paramAt?, hpi])
  · intro hz i t p ht hp
    have hlt : i < o.params.length := by
      have := (List.getElem?_eq_some_iff.mp ht).1
      omega
    have hpi : o.params[i]? = some p := by
      rw [paramAt?, List.getElem?_eq_getElem hlt] at hp
      rw [List.getElem?_eq_getElem hlt]
      exact hp
    exact hz (p, t) (List.mem_iff_getElem?.mpr ⟨i, List.getElem?_zip_eq_some.mpr ⟨hpi, ht⟩⟩)

end Overload

/-! ## Templates -/

namespace Param

/-- Whether every token that a parameter takes may stand at another one: the other takes
everything, asks for the same, or reads a variable where the first writes one. -/
def within (q p : Param) : Bool :=
  p.isOpen ||
    match q.form, p.form with
    | .keyword, _ => p.takes q.name
    | .value _ true _, .value _ true _ => true
    | .value _ true _, .value ty false _ => ty.excludes.isEmpty && ty.admits.contains .variable
    | .value ty false _, .value ty' false _ => ty = ty'
    | _, _ => false

theorem takes_of_within {q p : Param} {token : String} (h : q.within p = true)
    (ht : q.takes token = true) : p.takes token = true := by
  cases ho : p.isOpen with
  | true => exact takes_of_isOpen ho token
  | false =>
    obtain ⟨qname, qform, qopt⟩ := q
    obtain ⟨pname, pform, popt⟩ := p
    simp only [within, ho, Bool.false_or] at h
    cases qform with
    | keyword =>
      obtain rfl : token = qname := by simpa [takes] using ht
      exact h
    | value qty qwritten _ =>
      cases pform with
      | keyword => cases qwritten <;> exact absurd h (by simp)
      | value ty written _ =>
        cases qwritten with
        | true =>
          have hv : Ty.guess token = .variable := by simpa [takes] using ht
          cases written with
          | true => simp [takes, hv]
          | false =>
            simp only [Bool.and_eq_true, List.isEmpty_iff] at h
            simp only [takes, hv, h.1, h.2]
            simp
        | false =>
          cases written with
          | true => exact absurd h (by simp)
          | false =>
            obtain rfl : qty = ty := by simpa using h
            exact ht

end Param

/-- Whether the token in a slot may stand at a parameter, for every line that `e` takes. -/
def Slot.fits (e : Overload) (p : Param) : Slot → Bool
  | .word w => p.takes w
  | .operand 0 => false
  | .operand (n + 1) => (e.params[n]?).any (·.within p)

namespace Overload

/-- Whether a template of `e` always writes a line that `o` takes. -/
def serves (o e : Overload) (line : List Slot) : Bool :=
  o.isBase && o.isPlain && line.head? == some (.word o.mnemonic) &&
    line.length == o.params.length + 1 &&
      (o.params.zip (line.drop 1)).all fun ps => ps.2.fits e ps.1

/-- An operand of a line that is taken, with the parameter that takes it. -/
theorem takes_operand {e : Overload} {m : String} {ops : List String} {n : Nat} {q : Param}
    (he : e.isPlain = true) (ht : e.takes (m :: ops) = true) (hq : e.params[n]? = some q) :
    q.takes ((Slot.operand (n + 1)).fill (m :: ops)) = true := by
  obtain ⟨hlen, hp⟩ := (takes_iff_of_isPlain he m ops).mp ht
  have hlt : n < ops.length := by
    have := (List.getElem?_eq_some_iff.mp hq).1
    omega
  have hop := List.getElem?_eq_getElem hlt
  have hmem : (q, ops[n]) ∈ e.params.zip ops :=
    List.mem_iff_getElem?.mpr ⟨n, List.getElem?_zip_eq_some.mpr ⟨hq, hop⟩⟩
  have hfill : (Slot.operand (n + 1)).fill (m :: ops) = ops[n] := by simp [Slot.fill, hop]
  rw [hfill]
  exact hp _ hmem

theorem takes_fill {e : Overload} {slot : Slot} {p : Param} {m : String} {ops : List String}
    (he : e.isPlain = true) (ht : e.takes (m :: ops) = true) (hs : slot.fits e p = true) :
    p.takes (slot.fill (m :: ops)) = true := by
  cases slot with
  | word w => exact hs
  | operand n =>
    cases n with
    | zero => exact absurd hs (by simp [Slot.fits])
    | succ n =>
      obtain ⟨q, hq, hw⟩ := (Option.any_eq_true ..).mp hs
      exact Param.takes_of_within hw (takes_operand he ht hq)

/-- A template that serves writes a line of its overload from every line that is taken. -/
theorem takes_of_serves {o e : Overload} {line : List Slot} {m : String} {ops : List String}
    (hs : o.serves e line = true) (he : e.isPlain = true) (ht : e.takes (m :: ops) = true) :
    (line.map (Slot.fill (m :: ops))).head? = some o.mnemonic ∧
      o.takes (line.map (Slot.fill (m :: ops))) = true := by
  simp only [serves, Bool.and_eq_true, beq_iff_eq, List.all_eq_true] at hs
  obtain ⟨⟨⟨⟨-, hplain⟩, hhead⟩, hlen⟩, hfits⟩ := hs
  obtain ⟨slots, rfl⟩ := List.head?_eq_some_iff.mp hhead
  simp only [List.drop_succ_cons, List.drop_zero] at hfits
  simp only [List.length_cons, Nat.add_right_cancel_iff] at hlen
  refine ⟨rfl, ?_⟩
  rw [List.map_cons, takes_iff_of_isPlain hplain]
  refine ⟨by rw [List.length_map, hlen], ?_⟩
  rintro ⟨p, t⟩ hmem
  rw [List.zip_map_right] at hmem
  obtain ⟨⟨p', slot⟩, hin, heq⟩ := List.mem_map.mp hmem
  obtain ⟨rfl, rfl⟩ := Prod.mk.inj heq
  exact takes_fill he ht (hfits _ hin)

end Overload

namespace Instruction

/-- Whether each template of an overload is served by some overload of the table. -/
def templatesServed (e : Overload) : Bool :=
  match e.expansion with
  | .template lines => e.isPlain && lines.all fun line => table.any fun o => o.serves e line
  | _ => true

theorem templatesServed_of_mem : ∀ e ∈ beyondBase, templatesServed e = true := by
  decide

/-- **Templates write base instructions.** -/
theorem resolve_template {e : Overload} {lines : List (List Slot)} {m : String}
    {ops : List String} (he : e ∈ table) (hx : e.expansion = .template lines)
    (ht : e.takes (m :: ops) = true) :
    ∀ line ∈ e.expand (m :: ops), ∃ c, resolve line = .ok c ∧ c.isBase = true := by
  have hbase : e.isBase = false := by simp [Overload.isBase, hx]
  have hserved := templatesServed_of_mem e (List.mem_filter.mpr ⟨he, by simp [hbase]⟩)
  simp only [templatesServed, hx, Bool.and_eq_true, List.all_eq_true, List.any_eq_true] at hserved
  obtain ⟨hplain, hlines⟩ := hserved
  intro line hline
  simp only [Overload.expand, hx, Expansion.apply, List.mem_map] at hline
  obtain ⟨slots, hslots, rfl⟩ := hline
  obtain ⟨o, ho, hs⟩ := hlines slots hslots
  obtain ⟨hh, hto⟩ := Overload.takes_of_serves hs hplain ht
  have hob : o.isBase = true := by
    simp only [Overload.serves, Bool.and_eq_true] at hs
    exact hs.1.1.1.1
  exact exists_resolve_isBase ho hob hh hto

/-- Where many operands are taken, one at least is, and a base instruction takes it alone. -/
theorem eachOperand_of_mem : ∀ e ∈ table, e.expansion = .eachOperand →
    (e.block = none ∧ 1 ≤ e.least) ∧ ∃ o ∈ overloads e.mnemonic,
      o.isBase = true ∧ o.isOpen = true ∧ o.takesCount 1 = true := by
  decide

/-- **One value per line is a base instruction** wherever many are taken. -/
theorem resolve_eachOperand {e : Overload} {m : String} {ops : List String} (he : e ∈ table)
    (hx : e.expansion = .eachOperand) (hm : m = e.mnemonic) :
    ∀ line ∈ e.expand (m :: ops), ∃ c, resolve line = .ok c ∧ c.isBase = true := by
  obtain ⟨o, ho, hb, hopen, hc⟩ := (eachOperand_of_mem e he hx).2
  obtain ⟨hot, hom⟩ := mem_overloads_iff.mp ho
  intro line hline
  simp only [Overload.expand, hx, Expansion.apply, List.mem_map] at hline
  obtain ⟨value, -, rfl⟩ := hline
  have hops : o.operands [m, value] = [value] :=
    Overload.operands_eq_tail (Overload.isBase_iff.mp hb).2 _
  refine exists_resolve_isBase hot hb (by simp [hm, hom]) ?_
  exact Overload.takes_of_isOpen hopen (by rw [hops]; exact hc)

/-- The lines of a template. -/
def templateLines : Expansion → List (List Slot)
  | .template lines => lines
  | _ => []

/-- The templates of the table: none is empty, only `call` has more than one line, and no slot holds
a reference. -/
theorem template_of_mem : ∀ o ∈ table, o.expansion ≠ .template [] ∧
    (o.mnemonic ≠ "call" → (templateLines o.expansion).length ≤ 1) ∧
      ∀ line ∈ templateLines o.expansion, ∀ slot ∈ line, '$' ∉ slot.text.toList := by
  decide +kernel

/-- **Nothing expands to nothing**: no template is empty, and an instruction that is repeated for
each operand has at least one. -/
theorem expand_ne_nil {o : Overload} {tokens : List String} (h : resolve tokens = .ok o) :
    o.expand tokens ≠ [] := by
  obtain ⟨hmem, hh, ht⟩ := of_resolve h
  obtain ⟨ops, rfl⟩ := List.head?_eq_some_iff.mp hh
  unfold Overload.expand
  cases hx : o.expansion with
  | asWritten => simp [Expansion.apply]
  | template lines =>
    have hlines : lines ≠ [] := fun hnil => (template_of_mem o hmem).1 (hnil ▸ hx)
    simpa [Expansion.apply] using hlines
  | eachOperand =>
    obtain ⟨hblock, hleast⟩ := (eachOperand_of_mem o hmem hx).1
    have hcount := (Overload.le_of_takesCount (Overload.takes_iff.mp ht).1).1
    have hops : ops ≠ [] := by
      intro hnil
      simp only [Overload.operands, hblock, hnil, Option.isSome_none, Bool.false_eq_true, if_false,
        List.drop_succ_cons, List.drop_nil, List.length_nil] at hcount
      omega
    simpa [Expansion.apply] using hops
  | shorthand =>
    simp only [Expansion.apply]
    split
    · split <;> simp
    · simp

end Instruction

end Mlog
