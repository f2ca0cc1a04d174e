import Mlog.Proofs.Symbols.Merge

/-!
# The warnings about variables

Symbols warn about a variable in three ways: its definitions clash, it is read and never defined, or
it is read as something it is not.  This file says for each name which of these warnings there are
and what they cite (`variable_warnings`).

Definitions go together when their types are equal, once booleans count as numbers, and those that
say nothing about their variable go with all.  So to look for two that clash, it is enough to
compare the first that says something with those behind it (`conflict?_eq_some_iff`), although a
clash may be between any two (`isSome_conflict?_iff`).  Whether there is one does not depend on the
order of the definitions, and so not on the order in which units are merged.
-/
set_option autoImplicit false

namespace Mlog

/-- The type with booleans counted as numbers. -/
def Ty.plain (t : Ty) : Ty := if t = .boolean then .number else t

/-- Both definitions say something about their variable, and they do not go together. -/
def Definition.Clashes (a b : Definition) : Prop :=
  a.ty.isUninformative = false ∧ b.ty.isUninformative = false ∧ a.ty.plain ≠ b.ty.plain

namespace Symbols

/-! ## Definitions that clash -/

theorem sameType_iff {a b : Ty} : sameType a b = true ↔ a.plain = b.plain := by
  simp only [sameType, beq_iff_eq, Ty.plain]

/-- The first definition that says something, and the first behind it that clashes with it. -/
def FirstClash (definitions : List Definition) (first second : Definition) : Prop :=
  ∃ before between after, definitions = before ++ first :: (between ++ second :: after) ∧
    (∀ d ∈ before, d.ty.isUninformative = true) ∧ first.Clashes second ∧
      ∀ d ∈ between, ¬ first.Clashes d

section Clash

variable {definitions : List Definition} {first second : Definition}

/-- Behind the first definition that says something, the conflict is with the first that clashes
with it. -/
theorem conflict?_cons (h : first.ty.isUninformative = false) (rest : List Definition) :
    conflict? (first :: rest) =
      (rest.find? fun d => !d.ty.isUninformative && !sameType first.ty d.ty).map (first, ·) := by
  have hself : sameType first.ty first.ty = true := sameType_iff.mpr rfl
  have hkept : (first :: rest).filter (!·.ty.isUninformative) =
      first :: rest.filter (!·.ty.isUninformative) :=
    List.filter_cons_of_pos (by rw [h]; rfl)
  rw [conflict?, hkept]
  simp only [List.head?_cons, Option.bind_some, List.find?_cons, hself, Bool.not_true,
    List.find?_filter, Bool.decide_and, Bool.decide_eq_true]

theorem conflict?_of_uninformative (h : first.ty.isUninformative = true)
    (rest : List Definition) : conflict? (first :: rest) = conflict? rest := by
  rw [conflict?, List.filter_cons_of_neg (by simp [h]), conflict?]

theorem clashes_iff (h : first.ty.isUninformative = false) :
    first.Clashes second ↔
      (!second.ty.isUninformative && !sameType first.ty second.ty) = true := by
  simp [Definition.Clashes, h, ← sameType_iff]

/-- **The conflict that is found is the first clash.** -/
theorem conflict?_eq_some_iff :
    conflict? definitions = some (first, second) ↔ FirstClash definitions first second := by
  induction definitions with
  | nil =>
    refine iff_of_false (fun h => nomatch h) ?_
    rintro ⟨before, between, after, h, -⟩
    simp at h
  | cons d definitions ih =>
    cases hd : d.ty.isUninformative with
    | true =>
      rw [conflict?_of_uninformative hd, ih]
      constructor
      · rintro ⟨before, between, after, rfl, hbefore, hrest⟩
        exact ⟨d :: before, between, after, rfl, List.forall_mem_cons.mpr ⟨hd, hbefore⟩, hrest⟩
      · rintro ⟨before, between, after, h, hbefore, hclash, hbetween⟩
        cases before with
        | nil =>
          -- the first of a clash says something, and `d` does not
          obtain ⟨rfl, -⟩ := List.cons.inj h
          rw [hclash.1] at hd
          cases hd
        | cons d' before =>
          obtain ⟨rfl, rfl⟩ := List.cons.inj h
          exact ⟨before, between, after, rfl, (List.forall_mem_cons.mp hbefore).2, hclash, hbetween⟩
    | false =>
      simp only [conflict?_cons hd, Option.map_eq_some_iff, List.find?_eq_some_iff_append,
        ← clashes_iff hd]
      constructor
      · rintro ⟨second', ⟨hclash, between, after, rfl, hbetween⟩, h⟩
        obtain ⟨rfl, rfl⟩ := Prod.mk.inj h
        refine ⟨[], between, after, rfl, by simp, hclash, fun d' hd' hclash' => ?_⟩
        have hnot := hbetween d' hd'
        rw [(clashes_iff hd).mp hclash'] at hnot
        cases hnot
      · rintro ⟨before, between, after, h, hbefore, hclash, hbetween⟩
        cases before with
        | nil =>
          obtain ⟨rfl, rfl⟩ := List.cons.inj h
          refine ⟨second, ⟨hclash, between, after, rfl, fun d' hd' => ?_⟩, rfl⟩
          rw [Bool.not_eq_true', ← Bool.not_eq_true, ← clashes_iff hd]
          exact hbetween d' hd'
        | cons d' before =>
          obtain ⟨rfl, -⟩ := List.cons.inj h
          exact absurd (hbefore d List.mem_cons_self) (by simp [hd])

/-- **There is a conflict exactly if any two definitions clash.** -/
theorem isSome_conflict?_iff :
    (conflict? definitions).isSome = true ↔
      ∃ a ∈ definitions, ∃ b ∈ definitions, a.Clashes b := by
  induction definitions with
  | nil => simp [conflict?]
  | cons d definitions ih =>
    cases hd : d.ty.isUninformative with
    | true =>
      -- what says nothing clashes with nothing
      have hnone : ∀ b, ¬ d.Clashes b ∧ ¬ b.Clashes d := by
        intro b
        simp [Definition.Clashes, hd]
      rw [conflict?_of_uninformative hd, ih]
      simp [hnone]
    | false =>
      rw [conflict?_cons hd, Option.isSome_map, List.find?_isSome]
      constructor
      · rintro ⟨b, hb, hclash⟩
        exact ⟨d, List.mem_cons_self, b, List.mem_cons_of_mem _ hb, (clashes_iff hd).mpr hclash⟩
      · rintro ⟨a, ha, b, hb, hclash⟩
        -- one of the two is of another type than `d`
        have hother : ∀ c ∈ d :: definitions, c.ty.isUninformative = false →
            d.ty.plain ≠ c.ty.plain →
              ∃ x ∈ definitions, (!x.ty.isUninformative && !sameType d.ty x.ty) = true := by
          intro c hc hinformative hne
          rcases List.mem_cons.mp hc with rfl | hc
          · exact absurd rfl hne
          · exact ⟨c, hc, (clashes_iff hd).mp ⟨hd, hinformative, hne⟩⟩
        by_cases hda : d.ty.plain = a.ty.plain
        · exact hother b hb hclash.2.1 (hda ▸ hclash.2.2)
        · exact hother a ha hclash.1 hda

end Clash

/-! ## One definition for each type -/

/-- Keeps a definition if none that was kept has its type. -/
def keepDistinct (kept : List Definition) (d : Definition) : List Definition :=
  if kept.any fun seen => sameType seen.ty d.ty then kept else kept ++ [d]

/-- The definitions that say something, the first of each type. -/
def distinctTypes (definitions : List Definition) : List Definition :=
  (definitions.filter (!·.ty.isUninformative)).foldl keepDistinct []

theorem foldl_keepDistinct_cons (first : Definition) (kept ds : List Definition) :
    ∃ more, ds.foldl keepDistinct (first :: kept) = first :: (kept ++ more) := by
  induction ds generalizing kept with
  | nil => exact ⟨[], by simp⟩
  | cons d ds ih =>
    rw [List.foldl_cons, keepDistinct]
    split
    · exact ih kept
    · obtain ⟨more, hmore⟩ := ih (kept ++ [d])
      exact ⟨d :: more, by simpa using hmore⟩

/-- While one type is kept, the next to be kept is the first that differs from it. -/
theorem foldl_keepDistinct_singleton (first : Definition) (ds : List Definition) :
    match ds.find? fun d => !sameType first.ty d.ty with
    | none => ds.foldl keepDistinct [first] = [first]
    | some second => ∃ more, ds.foldl keepDistinct [first] = first :: second :: more := by
  induction ds with
  | nil => rfl
  | cons d ds ih =>
    cases hd : sameType first.ty d.ty with
    | true =>
      have hstep : keepDistinct [first] d = [first] := by simp [keepDistinct, hd]
      simpa only [List.find?_cons, hd, Bool.not_true, List.foldl_cons, hstep] using ih
    | false =>
      have hstep : keepDistinct [first] d = [first, d] := by simp [keepDistinct, hd]
      simp only [List.find?_cons, hd, Bool.not_false, List.foldl_cons, hstep]
      obtain ⟨more, hmore⟩ := foldl_keepDistinct_cons first [d] ds
      exact ⟨more, hmore⟩

/-- The conflict is between the first two definitions of distinct types. -/
theorem conflict?_eq_distinctTypes (definitions : List Definition) :
    conflict? definitions =
      match distinctTypes definitions with
      | first :: second :: _ => some (first, second)
      | _ => none := by
  unfold conflict? distinctTypes
  cases definitions.filter (!·.ty.isUninformative) with
  | nil => rfl
  | cons first ds =>
    have hself : sameType first.ty first.ty = true := sameType_iff.mpr rfl
    have hkept := foldl_keepDistinct_singleton first ds
    have hstart : (first :: ds).foldl keepDistinct [] = ds.foldl keepDistinct [first] := rfl
    simp only [List.head?_cons, Option.bind_some, List.find?_cons, hself, Bool.not_true, hstart]
    cases hfind : ds.find? fun d => !sameType first.ty d.ty with
    | none =>
      rw [hfind] at hkept
      rw [hkept]
      rfl
    | some second =>
      rw [hfind] at hkept
      obtain ⟨more, hmore⟩ := hkept
      rw [hmore]
      rfl

end Symbols

/-! ## The warnings about a name -/

namespace Diagnostic

/-- Whether the diagnostic says that the definitions of a variable clash. -/
def saysConflict (name : String) (d : Diagnostic) : Bool :=
  match d.finding with
  | .conflictingTypes n _ _ _ _ => n == name
  | _ => false

/-- Whether the diagnostic says that a variable is read and never defined. -/
def saysUndefined (name : String) (d : Diagnostic) : Bool :=
  match d.finding with
  | .undefinedVariable n _ => n == name
  | _ => false

/-- Whether the diagnostic says that a variable is read as something it is not. -/
def saysMismatch (name : String) (d : Diagnostic) : Bool :=
  match d.finding with
  | .mismatchedUse n _ _ _ => n == name
  | _ => false

end Diagnostic

namespace Symbols

open Diagnostic

variable (s : Symbols) (name : String)

/-- The definitions of the variable clash. -/
def Conflicted : Prop :=
  ∃ a ∈ s.definitions.values name, ∃ b ∈ s.definitions.values name, a.Clashes b

/-- The variable is read, and has no definition. -/
def Undefined : Prop := s.usages.values name ≠ [] ∧ s.definitions.values name = []

instance : Decidable (s.Undefined name) :=
  inferInstanceAs (Decidable (s.usages.values name ≠ [] ∧ s.definitions.values name = []))

/-- The warning about two definitions that clash. -/
def conflictWarning (first second : Definition) : Diagnostic :=
  ⟨.conflictingTypes name first.ty first.location second.ty second.location, some second.location⟩

/-- The warning about a read that does not accept the first definition. -/
def mismatchWarning (first : Definition) (usage : Usage) : Diagnostic :=
  ⟨.mismatchedUse name usage.types first.ty first.location, some usage.location⟩

/-- No type that the variable may be read as accepts the type of the definition. -/
def Refuses (usage : Usage) (first : Definition) : Prop :=
  ∀ ty ∈ usage.types, ty.accepts first.ty = false

instance (usage : Usage) (first : Definition) : Decidable (Refuses usage first) :=
  inferInstanceAs (Decidable (∀ ty ∈ usage.types, ty.accepts first.ty = false))

theorem conflicts_filter :
    s.conflicts.filter (saysConflict name) =
      ((conflict? (s.definitions.values name)).map fun pair =>
        conflictWarning name pair.1 pair.2).toList := by
  unfold conflicts
  rw [filter_filterMap_eq (q := (·.1 == name)), Dict.filter_entries]
  · unfold Dict.values
    cases s.definitions.get? name with
    | none => rfl
    | some definitions =>
      cases hc : conflict? definitions with
      | none => simp [hc]
      | some pair => simp [hc, conflictWarning]
  · rintro ⟨n, definitions⟩ d hd
    obtain ⟨pair, -, rfl⟩ := Option.map_eq_some_iff.mp hd
    rfl

/-- The warnings about the reads of one name come from what is recorded for it. -/
theorem misuses_filter {p : Diagnostic → Bool}
    (h : ∀ n ≠ name, ∀ definitions usages,
      (usageWarnings definitions n usages).filter p = []) :
    s.misuses.filter p =
      (usageWarnings (s.definitions.values name) name (s.usages.values name)).filter p := by
  have hentries : ∀ entries : List (String × List Usage),
      (entries.flatMap fun entry =>
        usageWarnings (s.definitions.values entry.1) entry.1 entry.2).filter p =
      ((entries.filter (·.1 == name)).flatMap fun entry =>
        usageWarnings (s.definitions.values entry.1) entry.1 entry.2).filter p := by
    intro entries
    induction entries with
    | nil => rfl
    | cons entry entries ih =>
      rw [List.flatMap_cons, List.filter_append, ih]
      by_cases hn : entry.1 = name
      · rw [List.filter_cons_of_pos (by simpa using hn), List.flatMap_cons, List.filter_append]
      · rw [List.filter_cons_of_neg (by simpa using hn), h entry.1 hn, List.nil_append]
  show (s.usages.entries.flatMap fun entry =>
    usageWarnings (s.definitions.values entry.1) entry.1 entry.2).filter p = _
  rw [hentries, Dict.filter_entries]
  unfold Dict.values
  cases s.usages.get? name with
  | some usages => simp
  | none =>
    have hnone : usageWarnings ((s.definitions.get? name).getD []) name [] = [] := by
      unfold usageWarnings
      split <;> rfl
    simp [hnone]

variable (definitions : List Definition) (usages : List Usage)

theorem usageWarnings_filter_undefined (n : String) :
    (usageWarnings definitions n usages).filter (saysUndefined name) =
      if n = name ∧ usages ≠ [] ∧ definitions = [] then
        [⟨.undefinedVariable name usages.length, usages.head?.map Usage.location⟩]
      else [] := by
  cases definitions with
  | nil =>
    cases usages with
    | nil => simp [usageWarnings]
    | cons usage usages =>
      by_cases hn : n = name
      · simp [usageWarnings, saysUndefined, hn]
      · simp [usageWarnings, saysUndefined, hn]
  | cons first definitions =>
    have hnone : ¬ (n = name ∧ usages ≠ [] ∧ first :: definitions = []) := by simp
    rw [if_neg hnone, List.filter_eq_nil_iff]
    intro d hd
    obtain ⟨usage, -, rfl⟩ := List.mem_map.mp hd
    simp [saysUndefined]

theorem usageWarnings_filter_mismatch (n : String) :
    (usageWarnings definitions n usages).filter (saysMismatch name) =
      if n = name then
        definitions.head?.toList.flatMap fun first =>
          (usages.filter (Refuses · first)).map (mismatchWarning name first)
      else [] := by
  cases definitions with
  | nil =>
    have hnone : (usageWarnings [] n usages).filter (saysMismatch name) = [] := by
      cases usages <;> rfl
    rw [hnone]
    split <;> rfl
  | cons first definitions =>
    have hrefuses : (fun u : Usage => !u.types.any fun ty => ty.accepts first.ty) =
        fun u => decide (Refuses u first) := by
      funext u
      rw [Bool.eq_iff_iff, decide_eq_true_iff]
      simp [Refuses]
    show ((usages.filter fun u => !u.types.any fun ty => ty.accepts first.ty).map
      (mismatchWarning n first)).filter (saysMismatch name) = _
    rw [hrefuses]
    by_cases hn : n = name
    · subst hn
      rw [if_pos rfl, List.filter_eq_self.mpr]
      · simp
      · intro d hd
        obtain ⟨usage, -, rfl⟩ := List.mem_map.mp hd
        simp [saysMismatch, mismatchWarning]
    · rw [if_neg hn, List.filter_eq_nil_iff]
      intro d hd
      obtain ⟨usage, -, rfl⟩ := List.mem_map.mp hd
      simpa [saysMismatch, mismatchWarning] using hn

/-! ## All warnings -/

/-- The warnings about clashes are about nothing else. -/
theorem of_mem_conflicts {d : Diagnostic} (h : d ∈ s.conflicts) :
    (∃ n, d.saysConflict n = true) ∧
      ∀ name, d.saysUndefined name = false ∧ d.saysMismatch name = false := by
  obtain ⟨⟨n, ds⟩, -, h⟩ := List.mem_filterMap.mp h
  obtain ⟨pair, -, rfl⟩ := Option.map_eq_some_iff.mp h
  exact ⟨⟨n, by simp [saysConflict]⟩, fun _ => ⟨rfl, rfl⟩⟩

theorem of_mem_misuses {d : Diagnostic} (h : d ∈ s.misuses) :
    (∃ n, d.saysUndefined n = true ∨ d.saysMismatch n = true) ∧
      ∀ name, d.saysConflict name = false := by
  obtain ⟨⟨n, us⟩, -, h⟩ := List.mem_flatMap.mp h
  simp only [usageWarnings] at h
  split at h
  · split at h
    · obtain rfl := List.mem_singleton.mp h
      exact ⟨⟨n, Or.inl (by simp [saysUndefined])⟩, fun _ => rfl⟩
    · cases h
  · obtain ⟨usage, -, rfl⟩ := List.mem_map.mp h
    exact ⟨⟨n, Or.inr (by simp [saysMismatch])⟩, fun _ => rfl⟩

theorem of_mem_labels {d : Diagnostic} (h : d ∈ s.duplicateLabels ++ s.missingLabels) :
    (∃ label, d.saysDuplicate label = true ∨ d.saysMissing label = true) ∧
      ∀ name, d.saysConflict name = false ∧ d.saysUndefined name = false ∧
        d.saysMismatch name = false := by
  rcases List.mem_append.mp h with h | h
  · obtain ⟨⟨l, sites⟩, -, h⟩ := List.mem_filterMap.mp h
    simp only [Option.ite_none_right_eq_some, Option.some.injEq] at h
    obtain ⟨-, rfl⟩ := h
    exact ⟨⟨l, Or.inl (by simp [saysDuplicate])⟩, fun _ => ⟨rfl, rfl, rfl⟩⟩
  · obtain ⟨⟨l, sites⟩, -, h⟩ := List.mem_filterMap.mp h
    simp only [Option.ite_none_left_eq_some, Option.some.injEq] at h
    obtain ⟨-, rfl⟩ := h
    exact ⟨⟨l, Or.inr (by simp [saysMissing])⟩, fun _ => ⟨rfl, rfl, rfl⟩⟩

theorem diagnose_filter_conflict :
    s.diagnose.filter (saysConflict name) = s.conflicts.filter (saysConflict name) := by
  have hmisuses : s.misuses.filter (saysConflict name) = [] := by
    rw [List.filter_eq_nil_iff]
    intro d hd
    simp [(s.of_mem_misuses hd).2 name]
  have hlabels : (s.duplicateLabels ++ s.missingLabels).filter (saysConflict name) = [] := by
    rw [List.filter_eq_nil_iff]
    intro d hd
    simp [(s.of_mem_labels hd).2 name]
  rw [diagnose, List.append_assoc, List.filter_append, List.filter_append, hmisuses, hlabels,
    List.append_nil, List.append_nil]

/-- What is said about the reads of a variable is said where they are checked. -/
theorem diagnose_filter_misuse {p : Diagnostic → Bool}
    (hp : p = saysUndefined name ∨ p = saysMismatch name) :
    s.diagnose.filter p = s.misuses.filter p := by
  have hconflicts : s.conflicts.filter p = [] := by
    rw [List.filter_eq_nil_iff]
    intro d hd
    obtain ⟨hundefined, hmismatch⟩ := (s.of_mem_conflicts hd).2 name
    rcases hp with rfl | rfl
    · simp [hundefined]
    · simp [hmismatch]
  have hlabels : (s.duplicateLabels ++ s.missingLabels).filter p = [] := by
    rw [List.filter_eq_nil_iff]
    intro d hd
    obtain ⟨-, hundefined, hmismatch⟩ := (s.of_mem_labels hd).2 name
    rcases hp with rfl | rfl
    · simp [hundefined]
    · simp [hmismatch]
  rw [diagnose, List.append_assoc, List.filter_append, List.filter_append, hconflicts, hlabels,
    List.append_nil, List.nil_append]

theorem diagnose_conflict :
    (s.Conflicted name → ∃ first second, FirstClash (s.definitions.values name) first second ∧
      s.diagnose.filter (saysConflict name) = [conflictWarning name first second]) ∧
    (¬ s.Conflicted name → s.diagnose.filter (saysConflict name) = []) := by
  rw [diagnose_filter_conflict, conflicts_filter]
  have hsome : (conflict? (s.definitions.values name)).isSome = true ↔ s.Conflicted name :=
    isSome_conflict?_iff
  rw [← hsome]
  cases hpair : conflict? (s.definitions.values name) with
  | none => exact ⟨fun h => Bool.noConfusion h, fun _ => rfl⟩
  | some pair =>
    refine ⟨fun _ => ⟨pair.1, pair.2, conflict?_eq_some_iff.mp hpair, ?_⟩, fun h => absurd rfl h⟩
    rfl

theorem diagnose_undefined :
    s.diagnose.filter (saysUndefined name) =
      if s.Undefined name then
        [⟨.undefinedVariable name (s.usages.values name).length,
          (s.usages.values name).head?.map Usage.location⟩]
      else [] := by
  rw [s.diagnose_filter_misuse name (Or.inl rfl), s.misuses_filter name,
    usageWarnings_filter_undefined]
  · by_cases h : s.Undefined name
    · rw [if_pos h, if_pos ⟨rfl, h⟩]
    · rw [if_neg h, if_neg fun h' => h h'.2]
  · intro n hn definitions usages
    rw [usageWarnings_filter_undefined, if_neg fun h => hn h.1]

theorem diagnose_mismatch :
    s.diagnose.filter (saysMismatch name) =
      (s.definitions.values name).head?.toList.flatMap fun first =>
        ((s.usages.values name).filter (Refuses · first)).map (mismatchWarning name first) := by
  rw [s.diagnose_filter_misuse name (Or.inr rfl), s.misuses_filter name,
    usageWarnings_filter_mismatch, if_pos rfl]
  intro n hn definitions usages
  rw [usageWarnings_filter_mismatch, if_neg hn]

/-! ## The order of merging -/

/-- A name is flagged exactly if the warnings with it are not none. -/
theorem flagged_iff {p : Diagnostic → Bool} :
    (∃ d ∈ s.diagnose, p d = true) ↔ s.diagnose.filter p ≠ [] := by
  simp [List.filter_eq_nil_iff]

theorem flags_conflict_iff :
    (∃ d ∈ s.diagnose, d.saysConflict name = true) ↔ s.Conflicted name := by
  obtain ⟨hsome, hnone⟩ := s.diagnose_conflict name
  rw [flagged_iff]
  constructor
  · intro h
    exact Classical.byContradiction fun hnot => h (hnone hnot)
  · intro h
    obtain ⟨first, second, -, hfilter⟩ := hsome h
    rw [hfilter]
    exact List.cons_ne_nil _ _

theorem flags_undefined_iff :
    (∃ d ∈ s.diagnose, d.saysUndefined name = true) ↔ s.Undefined name := by
  rw [flagged_iff, diagnose_undefined]
  by_cases h : s.Undefined name <;> simp [h]

theorem conflicted_merge_comm (a b : Symbols) :
    (a.merge b).Conflicted name ↔ (b.merge a).Conflicted name := by
  simp only [Conflicted, merge, Dict.values_merge, List.mem_append, or_comm]

theorem undefined_merge_comm (a b : Symbols) :
    (a.merge b).Undefined name ↔ (b.merge a).Undefined name := by
  simp only [Undefined, merge, Dict.values_merge, ne_eq, List.append_eq_nil_iff, and_comm]

/-- **What is said about variables.**  A name is said to conflict once if two of its definitions
clash, citing the first clash, and not at all otherwise; once to be undefined if it is read and has
no definition; and once for each read that refuses its first definition to be misread.  Nothing else
is said but about labels.  The names that conflict and those that are undefined are the same
whichever way two units are merged. -/
theorem variable_warnings :
    (∀ (s : Symbols) (name : String),
      (s.Conflicted name → ∃ first second, FirstClash (s.definitions.values name) first second ∧
        s.diagnose.filter (saysConflict name) = [conflictWarning name first second]) ∧
      (¬ s.Conflicted name → s.diagnose.filter (saysConflict name) = []) ∧
      s.diagnose.filter (saysUndefined name) =
        (if s.Undefined name then
          [⟨.undefinedVariable name (s.usages.values name).length,
            (s.usages.values name).head?.map Usage.location⟩]
        else []) ∧
      s.diagnose.filter (saysMismatch name) =
        (s.definitions.values name).head?.toList.flatMap fun first =>
          ((s.usages.values name).filter (Refuses · first)).map (mismatchWarning name first)) ∧
    (∀ (s : Symbols), ∀ d ∈ s.diagnose,
      (∃ name, d.saysConflict name = true ∨ d.saysUndefined name = true ∨
        d.saysMismatch name = true) ∨
      ∃ label, d.saysDuplicate label = true ∨ d.saysMissing label = true) ∧
    ∀ (a b : Symbols) (name : String),
      ((∃ d ∈ (a.merge b).diagnose, d.saysConflict name = true) ↔
        ∃ d ∈ (b.merge a).diagnose, d.saysConflict name = true) ∧
      ((∃ d ∈ (a.merge b).diagnose, d.saysUndefined name = true) ↔
        ∃ d ∈ (b.merge a).diagnose, d.saysUndefined name = true) := by
  refine ⟨fun s name => ?_, fun s d hd => ?_, fun a b name => ?_⟩
  · obtain ⟨hconflict, hnone⟩ := s.diagnose_conflict name
    exact ⟨hconflict, hnone, s.diagnose_undefined name, s.diagnose_mismatch name⟩
  · rw [diagnose, List.append_assoc, List.append_assoc, List.mem_append, List.mem_append] at hd
    rcases hd with hd | hd | hd
    · obtain ⟨n, hn⟩ := (s.of_mem_conflicts hd).1
      exact Or.inl ⟨n, Or.inl hn⟩
    · obtain ⟨n, hn⟩ := (s.of_mem_misuses hd).1
      exact Or.inl ⟨n, Or.inr hn⟩
    · exact Or.inr (s.of_mem_labels hd).1
  · rw [flags_conflict_iff, flags_conflict_iff, flags_undefined_iff, flags_undefined_iff]
    exact ⟨conflicted_merge_comm name a b, undefined_merge_comm name a b⟩

end Symbols

end Mlog
