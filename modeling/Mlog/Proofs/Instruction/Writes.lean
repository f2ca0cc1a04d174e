import Mlog.Proofs.Instruction.Shorthand

/-!
# What expansions write

An extended instruction says which variables it writes, and so do the base instructions that it
expands to.  They say the same, except that `call` also stores where to return to
(`expand_definitions`).

For a template this is a computation over the table.  Every line of every template means one base
overload whatever the operands are, because the other overloads of its mnemonic refuse the line for
its number of operands or for a word in it (`Overload.settles`).  So the parameters that a template
writes, and with which types, can be compared slot by slot (`keepsWrites_of_mem`).
-/
set_option autoImplicit false

namespace Mlog

/-- Whether the token in a slot cannot stand at a parameter, for any line that `e` takes. -/
def Slot.misfits (e : Overload) (p : Param) : Slot → Bool
  | .word w => !p.takes w
  | .operand 0 => false
  | .operand (n + 1) => (e.params[n]?).any fun q =>
    match q.words?, p.words? with
    | some ws, some ws' => ws.all fun w => !ws'.contains w
    | _, _ => false

namespace Overload

/-! ## The one meaning of a template's line -/

/-- Whether an overload refuses every line that a template of `e` writes. -/
def shuns (c e : Overload) (line : List Slot) : Bool :=
  c.block = none &&
    (!c.takesCount (line.drop 1).length ||
      (line.drop 1).zipIdx.any fun (slot, position) =>
        (c.paramAt? position).any fun p => slot.misfits e p)

theorem not_takes_of_misfits {e : Overload} {slot : Slot} {p : Param} {m : String}
    {ops : List String} (he : e.isPlain = true) (ht : e.takes (m :: ops) = true)
    (hs : slot.misfits e p = true) : p.takes (slot.fill (m :: ops)) = false := by
  cases slot with
  | word w => simpa [Slot.misfits, Slot.fill] using hs
  | operand n =>
    cases n with
    | zero => cases hs
    | succ n =>
      obtain ⟨q, hq, hw⟩ := (Option.any_eq_true ..).mp hs
      have hop := takes_operand he ht hq
      cases hqw : q.words? with
      | none => simp [hqw] at hw
      | some ws =>
        cases hpw : p.words? with
        | none => simp [hqw, hpw] at hw
        | some ws' =>
          simp only [hqw, hpw, List.all_eq_true] at hw
          have hin := (Param.takes_iff_of_words hqw _).mp hop
          have hout := hw _ hin
          cases htakes : p.takes ((Slot.operand (n + 1)).fill (m :: ops)) with
          | false => rfl
          | true => simp [(Param.takes_iff_of_words hpw _).mp htakes] at hout

theorem not_takes_of_shuns {c e : Overload} {line : List Slot} {m : String} {ops : List String}
    (hs : c.shuns e line = true) (he : e.isPlain = true) (ht : e.takes (m :: ops) = true) :
    c.takes (line.map (Slot.fill (m :: ops))) = false := by
  simp only [shuns, Bool.and_eq_true, Bool.or_eq_true, decide_eq_true_eq] at hs
  obtain ⟨hblock, hs⟩ := hs
  have hops : c.operands (line.map (Slot.fill (m :: ops))) =
      (line.drop 1).map (Slot.fill (m :: ops)) := by
    simp [operands, hblock]
  cases hc : c.takes (line.map (Slot.fill (m :: ops))) with
  | false => rfl
  | true =>
    obtain ⟨hcount, hp⟩ := takes_iff.mp hc
    rw [hops] at hcount hp
    rcases hs with hs | hs
    · rw [List.length_map] at hcount
      rw [hcount] at hs
      cases hs
    · obtain ⟨⟨slot, i⟩, hmem, hany⟩ := List.any_eq_true.mp hs
      obtain ⟨p, hpi, hmis⟩ := (Option.any_eq_true ..).mp hany
      have hslot : (line.drop 1)[i]? = some slot := List.mem_zipIdx_iff_getElem?.mp hmem
      have htakes := hp i _ p (by rw [List.getElem?_map, hslot]; rfl) hpi
      rw [not_takes_of_misfits he ht hmis] at htakes
      cases htakes

/-- Whether every line that a template of `e` writes means this overload. -/
def settles (o e : Overload) (line : List Slot) : Bool :=
  o.serves e line && o.writes = .declared &&
    (Instruction.overloads o.mnemonic).all fun c => c = o || c.shuns e line

/-! ## What is written, slot by slot -/

/-- The slots that stand at written parameters, with the types of these. -/
def writtenSlots (o : Overload) (slots : List Slot) : List (Slot × Ty) :=
  (slots.zip o.params).filterMap fun (slot, p) =>
    if p.isWritten then p.ty?.map fun ty => (slot, ty) else none

/-- The variables in slots that are written; `_` is none. -/
def named (tokens : List String) (slots : List (Slot × Ty)) : List (String × Ty) :=
  slots.filterMap fun (slot, ty) =>
    if slot.fill tokens = "_" then none else some (slot.fill tokens, ty)

variable {o : Overload} {m : String} {ops : List String}

/-- The operands of a plain overload pair off with its parameters. -/
theorem bind_of_isPlain (h : o.isPlain = true) (hlen : ops.length = o.params.length) :
    o.bind (m :: ops) = ops.zip o.params := by
  have hops : o.operands (m :: ops) = ops := operands_eq_tail (block_of_isPlain h) _
  have hpairs : ∀ (ops : List String) (params : List Param) (k : Nat),
      ops.length = params.length → (∀ i, i < ops.length → o.paramAt? (k + i) = params[i]?) →
        (ops.zipIdx k).filterMap (fun operand =>
          (o.paramAt? operand.2).map fun p => (operand.1, p)) = ops.zip params := by
    intro ops
    induction ops with
    | nil => intros; rfl
    | cons token ops ih =>
      intro params k hlen hparam
      cases params with
      | nil => cases hlen
      | cons p params =>
        have hp : o.paramAt? k = some p := by simpa using hparam 0 (by simp)
        have hrest := ih params (k + 1) (by simpa using hlen) fun i hi => by
          have := hparam (i + 1) (by simpa using hi)
          rw [show k + 1 + i = k + (i + 1) by omega, this]
          rfl
        simp only [List.zipIdx_cons, List.filterMap_cons, hp, Option.map_some, List.zip_cons_cons,
          hrest]
  rw [bind, hops]
  refine hpairs ops o.params 0 hlen fun i hi => ?_
  rw [Nat.zero_add, paramAt?, List.getElem?_eq_getElem (hlen ▸ hi)]

/-- What a plain overload writes in a line that is given by slots. -/
theorem definitions_fill (h : o.isPlain = true) (hw : o.writes = .declared) {slots : List Slot}
    (hlen : slots.length = o.params.length) (tokens : List String) :
    o.definitions (m :: slots.map (Slot.fill tokens)) = named tokens (o.writtenSlots slots) := by
  simp only [definitions, hw, bind_of_isPlain h (show (slots.map _).length = _ by simpa using hlen),
    List.zip_map_left, List.filterMap_map, named, writtenSlots, List.filterMap_filterMap]
  congr 1
  funext ⟨slot, p⟩
  cases hp : p.isWritten with
  | false => simp [hp]
  | true =>
    cases hty : p.ty? with
    | none => simp [hp, hty]
    | some ty => by_cases hname : slot.fill tokens = "_" <;> simp [hp, hty, hname]

/-- The operands of a line as the slots of a template that writes the line itself. -/
def ownSlots (o : Overload) : List Slot :=
  (List.range o.params.length).map fun i => .operand (i + 1)

theorem fill_ownSlots (hlen : ops.length = o.params.length) :
    o.ownSlots.map (Slot.fill (m :: ops)) = ops := by
  apply List.ext_getElem?
  intro i
  rw [ownSlots, List.map_map, List.getElem?_map]
  by_cases hi : i < ops.length
  · rw [List.getElem?_range (hlen ▸ hi)]
    simp [Slot.fill, List.getElem?_eq_getElem hi]
  · rw [List.getElem?_eq_none (by simpa [hlen] using hi), List.getElem?_eq_none (by omega)]
    rfl

theorem definitions_of_takes (h : o.isPlain = true) (hw : o.writes = .declared)
    (ht : o.takes (m :: ops) = true) :
    o.definitions (m :: ops) = named (m :: ops) (o.writtenSlots o.ownSlots) := by
  have hlen := ((takes_iff_of_isPlain h m ops).mp ht).1
  have hslots : o.ownSlots.length = o.params.length := by simp [ownSlots]
  have hdefs := definitions_fill (m := m) h hw hslots (m :: ops)
  rwa [fill_ownSlots hlen] at hdefs

/-- A slot that holds `_` names nothing. -/
theorem named_filter (tokens : List String) (slots : List (Slot × Ty)) :
    named tokens (slots.filter (·.1 != .word "_")) = named tokens slots := by
  rw [named, List.filterMap_filter, named]
  congr 1
  funext ⟨slot, ty⟩
  by_cases h : slot = .word "_"
  · simp [h, Slot.fill]
  · simp [h]

theorem named_append (tokens : List String) (slots slots' : List (Slot × Ty)) :
    named tokens (slots ++ slots') = named tokens slots ++ named tokens slots' :=
  List.filterMap_append

end Overload

namespace Instruction

/-- The base overload that a template's line means. -/
def settler? (e : Overload) (line : List Slot) : Option Overload := table.find? (·.settles e line)

/-- The slots that the lines of a template write. -/
def templateWrites (e : Overload) (lines : List (List Slot)) : List (Slot × Ty) :=
  lines.flatMap fun line =>
    match settler? e line with
    | some o => o.writtenSlots (line.drop 1)
    | none => []

/-- Whether an overload with templates writes what they write. -/
def keepsWrites (e : Overload) : Bool :=
  match e.expansion with
  | .template lines =>
    e.isPlain && e.writes = .declared && lines.all (fun line => (settler? e line).isSome) &&
      (templateWrites e lines).filter (·.1 != .word "_") =
        e.writtenSlots e.ownSlots ++
          if e.mnemonic = "call" then [(.word "_stack1", .number)] else []
  | _ => true

theorem keepsWrites_of_mem : ∀ e ∈ beyondBase, keepsWrites e = true := by
  decide +kernel

/-- **A template's line means the overload that settles it**, whatever the operands are. -/
theorem resolve_of_settles {o e : Overload} {line : List Slot} {m : String} {ops : List String}
    (hmem : o ∈ table) (hs : o.settles e line = true) (he : e.isPlain = true)
    (ht : e.takes (m :: ops) = true) : resolve (line.map (Slot.fill (m :: ops))) = .ok o := by
  simp only [Overload.settles, Bool.and_eq_true, List.all_eq_true, Bool.or_eq_true,
    decide_eq_true_eq] at hs
  obtain ⟨⟨hserves, -⟩, hothers⟩ := hs
  obtain ⟨hhead, htakes⟩ := Overload.takes_of_serves hserves he ht
  obtain ⟨c, hc⟩ := exists_resolve hmem hhead htakes
  obtain ⟨hcmem, hchead, hctakes⟩ := of_resolve hc
  have hm : c.mnemonic = o.mnemonic := Option.some.inj (hchead.symm.trans hhead)
  rcases hothers c (mem_overloads_iff.mpr ⟨hcmem, hm⟩) with rfl | hshuns
  · exact hc
  · rw [Overload.not_takes_of_shuns hshuns he ht] at hctakes
    cases hctakes

/-- What a line writes, by the overload that it means. -/
def lineDefinitions (line : List String) : List (String × Ty) :=
  match resolve line with
  | .ok base => base.definitions line
  | .error _ => []

theorem lineDefinitions_of_settles {o e : Overload} {line : List Slot} {m : String}
    {ops : List String} (hmem : o ∈ table) (hs : o.settles e line = true) (he : e.isPlain = true)
    (ht : e.takes (m :: ops) = true) :
    lineDefinitions (line.map (Slot.fill (m :: ops))) =
      Overload.named (m :: ops) (o.writtenSlots (line.drop 1)) := by
  rw [lineDefinitions, resolve_of_settles hmem hs he ht]
  simp only [Overload.settles, Overload.serves, Bool.and_eq_true, beq_iff_eq,
    decide_eq_true_eq] at hs
  obtain ⟨⟨⟨⟨⟨⟨-, hplain⟩, hhead⟩, hlen⟩, -⟩, hwrites⟩, -⟩ := hs
  obtain ⟨slots, rfl⟩ := List.head?_eq_some_iff.mp hhead
  rw [List.map_cons]
  exact Overload.definitions_fill hplain hwrites (by simpa using hlen) (m :: ops)

/-- The lines of a template write what the instruction writes, and those of `call` the address to
return to. -/
theorem template_definitions {e : Overload} {lines : List (List Slot)} {ops : List String}
    (he : e ∈ table) (hx : e.expansion = .template lines)
    (ht : e.takes (e.mnemonic :: ops) = true) :
    (e.expand (e.mnemonic :: ops)).flatMap lineDefinitions =
      e.definitions (e.mnemonic :: ops) ++
        if e.mnemonic = "call" then [("_stack1", .number)] else [] := by
  have hbase : e.isBase = false := by simp [Overload.isBase, hx]
  have hkeeps := keepsWrites_of_mem e (List.mem_filter.mpr ⟨he, by simp [hbase]⟩)
  simp only [keepsWrites, hx, Bool.and_eq_true, decide_eq_true_eq, List.all_eq_true] at hkeeps
  obtain ⟨⟨⟨hplain, hwrites⟩, hsettled⟩, hslots⟩ := hkeeps
  have hlines : (e.expand (e.mnemonic :: ops)).flatMap lineDefinitions =
      Overload.named (e.mnemonic :: ops) (templateWrites e lines) := by
    simp only [Overload.expand, hx, Expansion.apply, List.flatMap_map, Overload.named,
      templateWrites, List.filterMap_flatMap]
    rw [List.flatMap_def, List.flatMap_def]
    refine congrArg List.flatten (List.map_congr_left fun line hline => ?_)
    obtain ⟨o, ho⟩ := Option.isSome_iff_exists.mp (hsettled line hline)
    have hsettles : o.settles e line = true :=
      List.find?_some (p := fun c : Overload => c.settles e line) ho
    rw [ho, lineDefinitions_of_settles (List.mem_of_find?_eq_some ho) hsettles hplain ht]
    rfl
  rw [hlines, ← Overload.named_filter, hslots, Overload.named_append,
    Overload.definitions_of_takes hplain hwrites ht]
  congr 1
  split <;> rfl

/-- Printing writes nothing, at once or one value per line. -/
theorem print_of_mem : ∀ e ∈ table, e.expansion = .eachOperand →
    ∀ c ∈ overloads e.mnemonic, c.writes = .declared ∧ c.mnemonic ≠ "call" ∧
      ∀ p ∈ c.params, p.isWritten = false := by
  decide

theorem definitions_eq_nil {o : Overload} (hw : o.writes = .declared)
    (hp : ∀ p ∈ o.params, p.isWritten = false) (tokens : List String) :
    o.definitions tokens = [] := by
  simp only [Overload.definitions, hw, List.filterMap_eq_nil_iff]
  rintro ⟨token, p⟩ hmem
  obtain ⟨i, -, hpi⟩ := Overload.mem_bind_iff.mp hmem
  simp [hp p (Overload.paramAt?_mem hpi)]

theorem eachOperand_definitions {e : Overload} {ops : List String} (he : e ∈ table)
    (hx : e.expansion = .eachOperand) :
    (e.expand (e.mnemonic :: ops)).flatMap lineDefinitions =
      e.definitions (e.mnemonic :: ops) ++
        if e.mnemonic = "call" then [("_stack1", .number)] else [] := by
  obtain ⟨hwrites, hcall, hparams⟩ :=
    print_of_mem e he hx e (mem_overloads_iff.mpr ⟨he, rfl⟩)
  rw [definitions_eq_nil hwrites hparams, if_neg hcall, List.append_nil, List.flatMap_eq_nil_iff]
  intro line hline
  obtain ⟨c, hc, -⟩ := resolve_eachOperand he hx rfl line hline
  simp only [Overload.expand, hx, Expansion.apply, List.mem_map] at hline
  obtain ⟨value, -, rfl⟩ := hline
  obtain ⟨hmem, hhead, -⟩ := of_resolve hc
  obtain ⟨hwrites', -, hparams'⟩ := print_of_mem e he hx c
    (mem_overloads_iff.mpr ⟨hmem, (Option.some.inj hhead).symm⟩)
  rw [lineDefinitions, hc]
  exact definitions_eq_nil hwrites' hparams' _

/-! ## The shorthand -/

theorem sensedProperty_idem (property : String) :
    sensedProperty (sensedProperty property) = sensedProperty property := by
  by_cases h : property.toList.head? = some '@'
  · simp [sensedProperty, h]
  · simp [sensedProperty, h]

/-- The sensors write their output at the type of the property, which the shorthand has as a part
of its second operand. -/
theorem writes_of_sensor : ∀ o ∈ overloads "sensor", o.block = none ∧
    (o.expansion = .shorthand ∧ o.writes = .sensed 0 1 ∨
      o.expansion = .asWritten ∧ o.writes = .sensed 0 2) := by
  decide

/-- The shorthand writes what its line writes. -/
theorem shorthand_definitions {o base : Overload} {output thing property : String}
    (ho : o ∈ overloads "sensor") (hx : o.expansion = .shorthand)
    (hdot : '.' ∉ property.toList)
    (hr : resolve ["sensor", output, thing, sensedProperty property] = .ok base) :
    base.definitions ["sensor", output, thing, sensedProperty property] =
      o.definitions ["sensor", output, thing ++ "." ++ property] := by
  obtain ⟨hmem, hhead, -⟩ := of_resolve hr
  have hbase := expansion_of_sensor hr
  obtain ⟨hblock, hwrites⟩ := writes_of_sensor o ho
  obtain ⟨hblock', hwrites'⟩ := writes_of_sensor base
    (mem_overloads_iff.mpr ⟨hmem, (Option.some.inj hhead).symm⟩)
  have hw : o.writes = .sensed 0 1 := by simpa [hx] using hwrites
  have hw' : base.writes = .sensed 0 2 := by simpa [hbase] using hwrites'
  have hapart : Text.cutLast '.' (sensedProperty property).toList = none := by
    apply Text.cutLast_eq_none
    unfold sensedProperty
    split
    · exact hdot
    · simpa using hdot
  simp [Overload.definitions, Overload.operands, hw, hw', hblock, hblock', hapart,
    Text.cutLast_append thing.toList hdot, sensedProperty_idem]

/-- **Expansions keep what is written.**  Every line that a template or a repeated print expands to
is a base instruction, and together the lines write exactly what the instruction writes, in the
same order and with the same types; those of `call` also store the address to return to.  The line
of a shorthand writes what the shorthand writes, if it means anything. -/
theorem expand_definitions {o : Overload} {ops : List String} (ho : o ∈ table)
    (hc : o.check (o.mnemonic :: ops) = .ok ()) :
    ((∃ lines, o.expansion = .template lines) ∨ o.expansion = .eachOperand →
      (∀ line ∈ o.expand (o.mnemonic :: ops),
        ∃ base, resolve line = .ok base ∧ base.expansion = .asWritten) ∧
      (o.expand (o.mnemonic :: ops)).flatMap lineDefinitions =
        o.definitions (o.mnemonic :: ops) ++
          if o.mnemonic = "call" then [("_stack1", .number)] else []) ∧
    (o.expansion = .shorthand → ∃ line, o.expand (o.mnemonic :: ops) = [line] ∧
      ∀ base, resolve line = .ok base → base.definitions line =
        o.definitions (o.mnemonic :: ops)) := by
  have ht : o.takes (o.mnemonic :: ops) = true := by
    rw [Overload.takes, hc]
    rfl
  refine ⟨?_, fun hx => ?_⟩
  · rintro (⟨lines, hx⟩ | hx)
    · refine ⟨fun line hline => ?_, template_definitions ho hx ht⟩
      obtain ⟨base, hr, hb⟩ := resolve_template ho hx ht line hline
      exact ⟨base, hr, (Overload.isBase_iff.mp hb).1⟩
    · refine ⟨fun line hline => ?_, eachOperand_definitions ho hx⟩
      obtain ⟨base, hr, hb⟩ := resolve_eachOperand ho hx rfl line hline
      exact ⟨base, hr, (Overload.isBase_iff.mp hb).1⟩
  · obtain ⟨output, thing, property, htokens, -, -, hname⟩ := shorthand_of_takes ho ht hx
    have hdot := Shape.not_mem_of_isSensedName hname
    have hsensor := (mnemonic_of_shorthand o ho hx).1
    rw [htokens, expand_shorthand hx hdot]
    refine ⟨_, rfl, fun base hr => ?_⟩
    exact shorthand_definitions (mem_overloads_iff.mpr ⟨ho, hsensor⟩) hx hdot hr

/-- A call stores the address to return to, and a shorthand writes its output at the type of the
property. -/
theorem expand_definitions_call :
    (∃ o ∈ table, o.mnemonic = "call" ∧ o.check ["call", "f"] = .ok () ∧
      (o.expand ["call", "f"]).flatMap lineDefinitions = [("_stack1", .number)]) ∧
    ∃ o ∈ table, o.mnemonic = "sensor" ∧ o.expansion = .shorthand ∧
      o.check ["sensor", "x", "a.team"] = .ok () ∧
        (o.expand ["sensor", "x", "a.team"]).map lineDefinitions = [[("x", .team)]] := by
  have hcheck : ∀ {o : Overload} {tokens : List String}, o.takes tokens = true →
      o.check tokens = .ok () := by
    intro o tokens h
    cases hc : o.check tokens with
    | ok u => rfl
    | error r =>
      rw [Overload.takes, hc] at h
      cases h
  have hcall : ∃ o ∈ table, o.mnemonic = "call" ∧ o.takes ["call", "f"] = true ∧
      o.expansion ≠ .asWritten ∧ o.expansion ≠ .eachOperand ∧ o.expansion ≠ .shorthand ∧
        o.definitions ["call", "f"] = [] := by
    decide +kernel
  have hsensor : ∃ o ∈ table, o.mnemonic = "sensor" ∧ o.expansion = .shorthand ∧
      o.takes ["sensor", "x", "a.team"] = true ∧
        o.definitions ["sensor", "x", "a.team"] = [("x", .team)] ∧
          o.expand ["sensor", "x", "a.team"] = [["sensor", "x", "a", "@team"]] := by
    decide +kernel
  constructor
  · obtain ⟨o, ho, hm, ht, hw, he, hs, hdefs⟩ := hcall
    have hlines : ∃ lines, o.expansion = .template lines := by
      cases hx : o.expansion with
      | template lines => exact ⟨lines, rfl⟩
      | asWritten => exact absurd hx hw
      | eachOperand => exact absurd hx he
      | shorthand => exact absurd hx hs
    have h := ((expand_definitions ho (hm ▸ hcheck ht)).1 (Or.inl hlines)).2
    rw [hm, hdefs] at h
    exact ⟨o, ho, hm, hcheck ht, h⟩
  · obtain ⟨o, ho, hm, hx, ht, hdefs, hexpand⟩ := hsensor
    obtain ⟨line, hline, hsame⟩ := (expand_definitions ho (hm ▸ hcheck ht)).2 hx
    rw [hm] at hline hsame
    obtain rfl : ["sensor", "x", "a", "@team"] = line := by
      simpa [hexpand] using hline
    have hresolves : (resolve ["sensor", "x", "a", "@team"]).isOk = true := by decide +kernel
    cases hr : resolve ["sensor", "x", "a", "@team"] with
    | error r =>
      rw [hr] at hresolves
      cases hresolves
    | ok base =>
      refine ⟨o, ho, hm, hx, hcheck ht, ?_⟩
      rw [hexpand, List.map_singleton, lineDefinitions, hr]
      exact congrArg ([·]) ((hsame base hr).trans hdefs)

end Instruction

end Mlog
