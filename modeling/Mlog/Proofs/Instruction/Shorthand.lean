import Mlog.Proofs.Instruction.Expansion

/-!
# The sensor shorthand

`sensor out thing.property` is short for `sensor out thing @property`.  The shorthand is
recognised by its shape alone, two names and a dot, while the instruction behind it checks both
names: the thing has to be a building, a unit or a variable, and the property one of the words
that can be sensed.  So the table takes shorthands whose expansion it refuses.

`Senseless` describes exactly these lines, and `expand_resolves_iff` says that they are the only
ones in the whole instruction set: every other line that means something expands to base
instructions.
-/
set_option autoImplicit false

namespace Mlog

/-! ## The two halves of a shorthand -/

namespace Text

theorem cutLast_eq_none {sep : Char} {cs : List Char} (h : sep ∉ cs) : cutLast sep cs = none := by
  induction cs with
  | nil => rfl
  | cons c cs ih =>
    rw [List.mem_cons, not_or] at h
    have hne : ¬ (c == sep) = true := fun hq => h.1 (beq_iff_eq.mp hq).symm
    simp [cutLast, ih h.2, hne]

/-- The last separator is the one with none behind it. -/
theorem cutLast_append {sep : Char} (before : List Char) {after : List Char} (h : sep ∉ after) :
    cutLast sep (before ++ sep :: after) = some (before, after) := by
  induction before with
  | nil => simp [cutLast, cutLast_eq_none h]
  | cons c cs ih => simp [cutLast, ih]

theorem exists_last {sep : Char} {cs : List Char} (h : sep ∈ cs) :
    ∃ before after, cs = before ++ sep :: after ∧ sep ∉ after := by
  obtain ⟨after, before, heq, hafter⟩ := List.eq_append_cons_of_mem (List.mem_reverse.mpr h)
  refine ⟨before.reverse, after.reverse, ?_, by simpa using hafter⟩
  rw [← List.reverse_reverse cs, heq]
  simp

theorem isWord_of_isAlpha {c : Char} (h : c.isAlpha = true) : isWord c = true :=
  isWord_of_isNameStart (by simp [isNameStart, h])

end Text

namespace Shape

theorem eq_dropOne (d : Char) (cs : List Char) : cs = dropOne d cs ∨ cs = d :: dropOne d cs := by
  cases cs with
  | nil => exact Or.inl rfl
  | cons c cs =>
    by_cases h : c = d
    · subst h
      exact Or.inr (by simp [dropOne])
    · exact Or.inl (by simp [dropOne, h])

/-- The name of a property, with its `@` or without. -/
theorem isSensedName_cases {cs : List Char} (h : isSensedName cs = true) :
    ∃ c rest, c.isAlpha = true ∧ (∀ d ∈ rest, Text.isHyphenWord d = true) ∧
      (cs = c :: rest ∨ cs = '@' :: c :: rest) := by
  unfold isSensedName at h
  cases hd : dropOne '@' cs with
  | nil => rw [hd] at h; exact absurd h (by simp)
  | cons c rest =>
    rw [hd] at h
    simp only [Bool.and_eq_true, List.all_eq_true] at h
    refine ⟨c, rest, h.1, h.2, ?_⟩
    rw [← hd]
    exact eq_dropOne '@' cs

theorem not_mem_of_isSensedName {cs : List Char} (h : isSensedName cs = true) : '.' ∉ cs := by
  obtain ⟨c, rest, hc, hr, hcs⟩ := isSensedName_cases h
  have hne : '.' ≠ c := by rintro rfl; exact absurd hc (by decide)
  have hrest : '.' ∉ rest := fun hm => absurd (hr _ hm) (by decide)
  rcases hcs with rfl | rfl <;> simp [hne, hrest]

/-- A shorthand is a thing, a dot and the name of a property. -/
theorem isShorthand_split {cs : List Char} (h : isShorthand cs = true) :
    ∃ thing property, cs = thing ++ '.' :: property ∧ isSensedName property = true := by
  unfold isShorthand at h
  cases hd : dropOne '@' cs with
  | nil => rw [hd] at h; exact absurd h (by simp)
  | cons c rest =>
    rw [hd] at h
    simp only [Bool.and_eq_true] at h
    obtain ⟨-, h⟩ := h
    split at h
    · next property hrest =>
      have hsplit : dropOne '@' cs =
          (c :: rest.takeWhile Text.isHyphenWord) ++ '.' :: property := by
        rw [hd, ← hrest, List.cons_append, List.takeWhile_append_dropWhile]
      rcases eq_dropOne '@' cs with hcs | hcs
      · exact ⟨_, property, hcs.trans hsplit, h⟩
      · exact ⟨'@' :: _, property, hcs.trans (congrArg ('@' :: ·) hsplit), h⟩
    · exact absurd h (by simp)

end Shape

/-- A property named with its `@` has the shape of content. -/
theorem isContent_sensedProperty {property : String}
    (h : Shape.isSensedName property.toList = true) :
    Shape.isContent (sensedProperty property).toList = true := by
  obtain ⟨c, rest, hc, hr, hcs⟩ := Shape.isSensedName_cases h
  have hname : ∀ d ∈ c :: rest, Text.isHyphenWord d = true := by
    intro d hd
    rcases List.mem_cons.mp hd with rfl | hd
    · simp [Text.isHyphenWord, Text.isWord_of_isAlpha hc]
    · exact hr d hd
  have hlist : (sensedProperty property).toList = '@' :: c :: rest := by
    rcases hcs with hcs | hcs
    · have hne : c ≠ '@' := by rintro rfl; exact absurd hc (by decide)
      simp [sensedProperty, hcs, hne]
    · simp [sensedProperty, hcs]
  rw [hlist]
  simpa [Shape.isContent] using hname

/-! ## What the sensed instruction takes -/

namespace Ty

theorem guess_eq_unit_iff {token : String} : guess token = .unit ↔ token = "@unit" := by
  constructor
  · intro h
    simpa [recognises] using (recognises_of_guess h (by simp)).2
  · rintro rfl
    decide

theorem guess_eq_building_iff {token : String} :
    guess token = .building ↔ Shape.isBuilding token = true := by
  constructor
  · intro h
    exact (recognises_of_guess h (by simp)).2
  · intro h
    have hne : token ≠ "@unit" := by rintro rfl; exact absurd h (by decide)
    simp [guess, all, guessable, recognises, hne, h]

theorem guess_of_mem_materials :
    (∀ token ∈ Vocabulary.items, guess token = .itemType) ∧
      ∀ token ∈ Vocabulary.liquids, guess token = .liquidType := by
  decide

end Ty

namespace Param

theorem takes_out_iff {name token : String} {ty : Ty} :
    (out name ty).takes token = true ↔ Ty.guess token = .variable := by
  simp [takes, out]

theorem takes_unit_iff {name token : String} :
    (val name .unit).takes token = true ↔
      Ty.guess token = .unit ∨ Ty.guess token = .variable := by
  simp only [takes, val, Ty.isWildcard, Ty.excludes, Ty.admits, Ty.recognises, List.contains_nil]
  simp [← Ty.guess_eq_unit_iff]

theorem takes_building_iff {name token : String} :
    (val name .building).takes token = true ↔
      Ty.guess token = .building ∨ Ty.guess token = .variable := by
  simp only [takes, val, Ty.isWildcard, Ty.excludes, Ty.admits, Ty.recognises, List.contains_nil]
  simp [← Ty.guess_eq_building_iff]

/-- Of the tokens with an `@`, those can be sensed that are listed. -/
theorem takes_senseable_iff {name token : String} (hc : Shape.isContent token.toList = true) :
    (val name .senseable).takes token = true ↔
      token ∈ Vocabulary.properties ++ Vocabulary.items ++ Vocabulary.liquids := by
  have hrec : Ty.contentType.recognises token = true := hc
  have hv : Ty.guess token ≠ .variable := Ty.guess_ne_variable rfl hrec
  have hsense : Ty.guess token = .senseable → token ∈ Vocabulary.properties := by
    intro h
    simpa [Ty.recognises] using (Ty.recognises_of_guess h (by simp)).2
  have hitem : Ty.guess token = .itemType ↔ token ∈ Vocabulary.items := by
    refine ⟨fun h => ?_, Ty.guess_of_mem_materials.1 token⟩
    simpa [Ty.recognises] using (Ty.recognises_of_guess h (by simp)).2
  have hliquid : Ty.guess token = .liquidType ↔ token ∈ Vocabulary.liquids := by
    refine ⟨fun h => ?_, Ty.guess_of_mem_materials.2 token⟩
    simpa [Ty.recognises] using (Ty.recognises_of_guess h (by simp)).2
  simp only [takes, val, Ty.isWildcard, Ty.excludes, Ty.admits, Ty.recognises, List.contains_nil]
  simp only [Bool.false_eq_true, ↓reduceIte, Bool.or_eq_true, beq_iff_eq, List.contains_iff_mem,
    List.mem_cons, List.not_mem_nil, or_false, hv, false_or, hitem, hliquid, List.mem_append]
  constructor
  · rintro ((h | h) | h)
    · exact Or.inl (Or.inl (hsense h))
    · exact Or.inl (Or.inl h)
    · rcases h with h | h
      · exact Or.inl (Or.inr h)
      · exact Or.inr h
  · rintro ((h | h) | h)
    · exact Or.inl (Or.inr h)
    · exact Or.inr (Or.inl h)
    · exact Or.inr (Or.inr h)

end Param

namespace Instruction

/-- Whether a property of a thing can be sensed: the thing may be a building or a unit, and the
property is one that the game has. -/
def Sensible (thing property : String) : Prop :=
  (Ty.guess thing = .variable ∨ Ty.guess thing = .building ∨ Ty.guess thing = .unit) ∧
    sensedProperty property ∈ Vocabulary.properties ++ Vocabulary.items ++ Vocabulary.liquids

instance (thing property : String) : Decidable (Sensible thing property) :=
  inferInstanceAs (Decidable (_ ∧ _))

/-- A line in the shape of the shorthand whose property of its thing cannot be sensed. -/
def Senseless (tokens : List String) : Prop :=
  ∃ output thing property : String,
    tokens = ["sensor", output, thing ++ "." ++ property] ∧ '.' ∉ property.toList ∧
      Ty.guess output = .variable ∧ Shape.isShorthand (thing ++ "." ++ property).toList = true ∧
        ¬ Sensible thing property

/-! ## The overloads of the sensor -/

/-- The three overloads: a building's property, a unit's, and the shorthand. -/
theorem overloads_sensor :
    (∀ o ∈ overloads "sensor", o.isPlain = true ∧
      (o.params = [.out "output" .any, .val "building" .building, .val "property" .senseable] ∧
          o.expansion = .asWritten ∨
        o.params = [.out "output" .any, .val "unit" .unit, .val "property" .senseable] ∧
          o.expansion = .asWritten ∨
        o.params = [.out "output" .any, .val "target" .senseShorthand] ∧
          o.expansion = .shorthand)) ∧
    (∃ o ∈ overloads "sensor",
      o.params = [.out "output" .any, .val "building" .building, .val "property" .senseable]) ∧
    (∃ o ∈ overloads "sensor",
      o.params = [.out "output" .any, .val "unit" .unit, .val "property" .senseable]) ∧
    (∃ o ∈ overloads "sensor",
      o.params = [.out "output" .any, .val "target" .senseShorthand]) := by
  decide

/-- The table has one shorthand. -/
theorem mnemonic_of_shorthand : ∀ o ∈ table, o.expansion = .shorthand →
    o.mnemonic = "sensor" ∧ o.params = [.out "output" .any, .val "target" .senseShorthand] := by
  decide

theorem exists_resolve_iff {m : String} {ops : List String} :
    (∃ c, resolve (m :: ops) = .ok c) ↔ ∃ o ∈ overloads m, o.takes (m :: ops) = true := by
  constructor
  · rintro ⟨c, hc⟩
    obtain ⟨hmem, hh, ht⟩ := of_resolve hc
    exact ⟨c, mem_overloads_iff.mpr ⟨hmem, (Option.some.inj hh).symm⟩, ht⟩
  · rintro ⟨o, ho, ht⟩
    obtain ⟨hmem, rfl⟩ := mem_overloads_iff.mp ho
    exact exists_resolve hmem rfl ht

/-- What the sensor takes when its thing and its property stand apart. -/
theorem resolve_sensor_iff {output thing property : String} :
    (∃ c, resolve ["sensor", output, thing, property] = .ok c) ↔
      Ty.guess output = .variable ∧
        (Ty.guess thing = .variable ∨ Ty.guess thing = .building ∨ Ty.guess thing = .unit) ∧
          (Param.val "property" .senseable).takes property = true := by
  rw [exists_resolve_iff]
  constructor
  · rintro ⟨o, ho, ht⟩
    obtain ⟨hplain, hp⟩ := overloads_sensor.1 o ho
    obtain ⟨hlen, hops⟩ := (Overload.takes_iff_of_isPlain hplain _ _).mp ht
    rcases hp with ⟨hp, -⟩ | ⟨hp, -⟩ | ⟨hp, -⟩
    · simp only [hp, List.zip_cons_cons, List.forall_mem_cons] at hops
      obtain ⟨h0, h1, h2, -⟩ := hops
      rw [Param.takes_building_iff] at h1
      exact ⟨Param.takes_out_iff.mp h0, by rcases h1 with h1 | h1 <;> simp [h1], h2⟩
    · simp only [hp, List.zip_cons_cons, List.forall_mem_cons] at hops
      obtain ⟨h0, h1, h2, -⟩ := hops
      rw [Param.takes_unit_iff] at h1
      exact ⟨Param.takes_out_iff.mp h0, by rcases h1 with h1 | h1 <;> simp [h1], h2⟩
    · rw [hp] at hlen
      exact absurd hlen (by simp)
  · rintro ⟨h0, h1, h2⟩
    have hout : (Param.out "output" .any).takes output = true := Param.takes_out_iff.mpr h0
    -- a variable may be either, and the building is tried first
    by_cases hunit : Ty.guess thing = .unit
    · obtain ⟨o, ho, hp⟩ := overloads_sensor.2.2.1
      refine ⟨o, ho, (Overload.takes_iff_of_isPlain (overloads_sensor.1 o ho).1 _ _).mpr ?_⟩
      rw [hp]
      simp [hout, h2, Param.takes_unit_iff, hunit]
    · obtain ⟨o, ho, hp⟩ := overloads_sensor.2.1
      refine ⟨o, ho, (Overload.takes_iff_of_isPlain (overloads_sensor.1 o ho).1 _ _).mpr ?_⟩
      rw [hp]
      have hthing : (Param.val "building" .building).takes thing = true := by
        rw [Param.takes_building_iff]
        rcases h1 with h1 | h1 | h1
        · exact Or.inr h1
        · exact Or.inl h1
        · exact absurd h1 hunit
      simp [hout, h2, hthing]

/-- A line that the shorthand takes, taken apart. -/
theorem shorthand_of_takes {o : Overload} {ops : List String} (hmem : o ∈ table)
    (ht : o.takes (o.mnemonic :: ops) = true) (hx : o.expansion = .shorthand) :
    ∃ output thing property : String,
      o.mnemonic :: ops = ["sensor", output, thing ++ "." ++ property] ∧
      Ty.guess output = .variable ∧ Shape.isShorthand (thing ++ "." ++ property).toList = true ∧
        Shape.isSensedName property.toList = true := by
  obtain ⟨hm, hp⟩ := mnemonic_of_shorthand o hmem hx
  have hplain := (overloads_sensor.1 o (mem_overloads_iff.mpr ⟨hmem, hm⟩)).1
  obtain ⟨hlen, hops⟩ := (Overload.takes_iff_of_isPlain hplain _ _).mp ht
  rw [hp] at hlen hops
  match ops, hlen with
  | [output, operand], _ =>
    simp only [List.zip_cons_cons, List.forall_mem_cons] at hops
    obtain ⟨hout, htarget, -⟩ := hops
    have hlooks : Ty.guess operand ≠ .senseShorthand := by
      intro hq
      have := (Ty.recognises_of_guess hq (by simp)).1
      simp [Ty.guessable] at this
    have hshape : Shape.isShorthand operand.toList = true := by
      simpa [Param.takes, Param.val, Ty.isWildcard, Ty.excludes, Ty.admits, Ty.recognises, hlooks]
        using htarget
    obtain ⟨thing, property, hcs, hname⟩ := Shape.isShorthand_split hshape
    have hoperand : operand = String.ofList thing ++ "." ++ String.ofList property := by
      apply String.toList_injective
      simp [hcs]
    subst hoperand
    exact ⟨output, _, _, by rw [hm], Param.takes_out_iff.mp hout, hshape, by simpa using hname⟩

theorem shorthand_cases {o : Overload} {tokens : List String} (h : resolve tokens = .ok o)
    (hx : o.expansion = .shorthand) :
    ∃ output thing property : String, tokens = ["sensor", output, thing ++ "." ++ property] ∧
      Ty.guess output = .variable ∧ Shape.isShorthand (thing ++ "." ++ property).toList = true ∧
        Shape.isSensedName property.toList = true := by
  obtain ⟨hmem, hh, ht⟩ := of_resolve h
  obtain ⟨ops, rfl⟩ := List.head?_eq_some_iff.mp hh
  exact shorthand_of_takes hmem ht hx

/-- The halves of an operand are determined by its last dot. -/
theorem eq_of_append_dot {a b a' b' : String} (hb : '.' ∉ b.toList) (hb' : '.' ∉ b'.toList)
    (h : a ++ "." ++ b = a' ++ "." ++ b') : a = a' ∧ b = b' := by
  have hlist : a.toList ++ '.' :: b.toList = a'.toList ++ '.' :: b'.toList := by
    simpa using congrArg String.toList h
  have hcut := congrArg (Text.cutLast '.') hlist
  rw [Text.cutLast_append _ hb, Text.cutLast_append _ hb'] at hcut
  obtain ⟨ha, hb⟩ := Prod.mk.inj (Option.some.inj hcut)
  exact ⟨String.toList_injective ha, String.toList_injective hb⟩

/-- A sensor with three operands is a base instruction. -/
theorem expansion_of_sensor {output thing property : String} {c : Overload}
    (h : resolve ["sensor", output, thing, property] = .ok c) : c.expansion = .asWritten := by
  obtain ⟨hmem, hh, ht⟩ := of_resolve h
  obtain ⟨hplain, hp⟩ := overloads_sensor.1 c
    (mem_overloads_iff.mpr ⟨hmem, (Option.some.inj hh).symm⟩)
  obtain ⟨hlen, -⟩ := (Overload.takes_iff_of_isPlain hplain _ _).mp ht
  rcases hp with ⟨-, hx⟩ | ⟨-, hx⟩ | ⟨hp, -⟩
  · exact hx
  · exact hx
  · rw [hp] at hlen
    exact absurd hlen (by simp)

theorem expand_shorthand {o : Overload} {output thing property : String}
    (hx : o.expansion = .shorthand) (hdot : '.' ∉ property.toList) :
    o.expand ["sensor", output, thing ++ "." ++ property] =
      [["sensor", output, thing, sensedProperty property]] := by
  have hcut : Text.cutLast '.' (thing ++ "." ++ property).toList =
      some (thing.toList, property.toList) := by
    have hlist : (thing ++ "." ++ property).toList = thing.toList ++ '.' :: property.toList := by
      simp
    rw [hlist, Text.cutLast_append _ hdot]
  simp only [Overload.expand, hx, Expansion.apply, hcut, String.ofList_toList]

/-- What the shorthand expands to means something exactly when it can be sensed. -/
theorem resolve_shorthand_iff {output thing property : String}
    (hout : Ty.guess output = .variable) (hname : Shape.isSensedName property.toList = true) :
    (∃ c, resolve ["sensor", output, thing, sensedProperty property] = .ok c) ↔
      Sensible thing property := by
  rw [resolve_sensor_iff, Param.takes_senseable_iff (isContent_sensedProperty hname)]
  simp [Sensible, hout]

/-- A senseless line is a shorthand: two operands are too few for the other sensors. -/
theorem expansion_of_senseless {o : Overload} {tokens : List String}
    (h : resolve tokens = .ok o) (hs : Senseless tokens) : o.expansion = .shorthand := by
  obtain ⟨output, thing, property, rfl, -⟩ := hs
  obtain ⟨hmem, hh, ht⟩ := of_resolve h
  obtain ⟨hplain, hp⟩ := overloads_sensor.1 o
    (mem_overloads_iff.mpr ⟨hmem, (Option.some.inj hh).symm⟩)
  obtain ⟨hlen, -⟩ := (Overload.takes_iff_of_isPlain hplain _ _).mp ht
  rcases hp with ⟨hp, -⟩ | ⟨hp, -⟩ | ⟨-, hx⟩
  · rw [hp] at hlen
    exact absurd hlen (by simp)
  · rw [hp] at hlen
    exact absurd hlen (by simp)
  · exact hx

/-- **The instruction set contradicts itself only in senseless shorthands**: every other line that
means something expands to lines that mean base instructions. -/
theorem expand_resolves_iff {o : Overload} {tokens : List String} (h : resolve tokens = .ok o) :
    (∀ line ∈ o.expand tokens, ∃ base, resolve line = .ok base ∧ base.expansion = .asWritten) ↔
      ¬ Senseless tokens := by
  obtain ⟨hmem, hh, ht⟩ := of_resolve h
  obtain ⟨ops, htokens⟩ := List.head?_eq_some_iff.mp hh
  cases hx : o.expansion with
  | asWritten =>
    refine iff_of_true (fun line hline => ?_) fun hs => ?_
    · obtain rfl : line = tokens := by simpa [Overload.expand, hx, Expansion.apply] using hline
      exact ⟨o, h, hx⟩
    · exact absurd (expansion_of_senseless h hs) (by simp [hx])
  | template lines =>
    refine iff_of_true (fun line hline => ?_) fun hs => ?_
    · subst htokens
      obtain ⟨c, hc, hb⟩ := resolve_template hmem hx ht line hline
      exact ⟨c, hc, (Overload.isBase_iff.mp hb).1⟩
    · exact absurd (expansion_of_senseless h hs) (by simp [hx])
  | eachOperand =>
    refine iff_of_true (fun line hline => ?_) fun hs => ?_
    · subst htokens
      obtain ⟨c, hc, hb⟩ := resolve_eachOperand hmem hx rfl line hline
      exact ⟨c, hc, (Overload.isBase_iff.mp hb).1⟩
    · exact absurd (expansion_of_senseless h hs) (by simp [hx])
  | shorthand =>
    obtain ⟨output, thing, property, rfl, hout, hshape, hname⟩ := shorthand_cases h hx
    have hdot := Shape.not_mem_of_isSensedName hname
    have hsense := @resolve_shorthand_iff output thing property hout hname
    rw [expand_shorthand hx hdot]
    constructor
    · rintro hlines ⟨output', thing', property', heq, hdot', -, -, hnot⟩
      -- the dot that divides the operand is its last one, so the halves are the same
      simp only [List.cons.injEq, and_true, true_and] at heq
      obtain ⟨rfl, hoperand⟩ := heq
      obtain ⟨rfl, rfl⟩ := eq_of_append_dot hdot hdot' hoperand
      obtain ⟨c, hc, -⟩ := hlines _ (List.mem_singleton.mpr rfl)
      exact hnot (hsense.mp ⟨c, hc⟩)
    · intro hs line hline
      obtain rfl := List.mem_singleton.mp hline
      have hsensible : Sensible thing property := by
        cases hd : decide (Sensible thing property) with
        | true => exact of_decide_eq_true hd
        | false => exact absurd ⟨output, thing, property, rfl, hdot, hout, hshape,
            of_decide_eq_false hd⟩ hs
      obtain ⟨c, hc⟩ := hsense.mpr hsensible
      exact ⟨c, hc, expansion_of_sensor hc⟩

end Instruction

end Mlog
