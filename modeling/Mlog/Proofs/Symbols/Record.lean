import Mlog.Symbols

/-!
# What symbols record of labels

Recording statements one after the other gathers two lists of places under names: where a label is
defined and where it is jumped to.  The dictionaries are therefore those gathered from all
statements at once (`foldl_add_eq_gather`), and what they have under a name is what was gathered
for it, in order (`get?_gather`).

A dictionary has one entry for a name at most, so the warnings about a label are at most one of
each kind (`duplicateLabels_filter`, `missingLabels_filter`).
-/
set_option autoImplicit false

namespace Mlog

variable {α β : Type}

/-! ## Gathering -/

namespace Dict

/-- The dictionary with values put behind those that their names have, in order. -/
def gather (d : Dict (List β)) (pairs : List (String × β)) : Dict (List β) :=
  pairs.foldl (fun d pair => d.append pair.1 [pair.2]) d

theorem get?_append (d : Dict (List β)) (name : String) (vs : List β) (n : String) :
    (d.append name vs).get? n = if n = name then some (d.values name ++ vs) else d.get? n :=
  d.get?_update name _ n

theorem gather_append (d : Dict (List β)) (xs ys : List (String × β)) :
    d.gather (xs ++ ys) = (d.gather xs).gather ys :=
  List.foldl_append

/-- The values that a list of pairs has for a name. -/
def valuesIn (name : String) (pairs : List (String × β)) : List β :=
  (pairs.filter (·.1 == name)).map Prod.snd

/-- What is gathered under a name. -/
theorem get?_gather (d : Dict (List β)) (pairs : List (String × β)) (name : String) :
    (d.gather pairs).get? name =
      if valuesIn name pairs = [] then d.get? name
      else some (d.values name ++ valuesIn name pairs) := by
  induction pairs generalizing d with
  | nil => rfl
  | cons pair pairs ih =>
    show ((d.append pair.1 [pair.2]).gather pairs).get? name = _
    rw [ih]
    by_cases hname : pair.1 = name
    · subst hname
      have hcons : valuesIn pair.1 (pair :: pairs) = pair.2 :: valuesIn pair.1 pairs := by
        simp [valuesIn]
      rw [hcons, if_neg (List.cons_ne_nil _ _)]
      by_cases hnone : valuesIn pair.1 pairs = []
      · simp [hnone, get?_append]
      · simp [hnone, values, get?_append]
    · have hskip : valuesIn name (pair :: pairs) = valuesIn name pairs := by
        simp [valuesIn, hname]
      rw [hskip, values, get?_append, if_neg (Ne.symm hname), values]

/-- The entries of a name: the one that a look-up finds. -/
theorem filter_entries (d : Dict α) (name : String) :
    d.entries.filter (·.1 == name) = ((d.get? name).map fun v => (name, v)).toList := by
  obtain ⟨entries, hascending⟩ := d
  show entries.filter _ = ((Entries.get? name entries).map fun v => (name, v)).toList
  induction entries with
  | nil => rfl
  | cons entry entries ih =>
    obtain ⟨n, v⟩ := entry
    obtain ⟨hlt, hrest⟩ := List.pairwise_cons.mp hascending
    rw [Entries.get?]
    by_cases hname : n = name
    · subst hname
      -- the names ascend, so no later entry has the name
      have hlater : entries.filter (·.1 == n) = [] := by
        rw [ih hrest, Entries.get?_eq_none_of_lt hlt]
        rfl
      simp [hlater]
    · rw [List.filter_cons_of_neg (by simpa using hname), if_neg hname]
      exact ih hrest

end Dict

/-! ## Recording -/

/-- The labels that the statement jumps to, under any overload that takes it. -/
def Statement.targets (s : Statement) : List String :=
  match s.label? with
  | some _ => []
  | none => ((Instruction.matching s.tokens).flatMap (·.targets s.tokens)).eraseDups

namespace Symbols

/-- The labels that statements define, with their places. -/
def labelSites (statements : List Statement) : List (String × Location) :=
  statements.flatMap fun s => s.label?.toList.map fun label => (label, s.location)

/-- The labels that statements jump to, with the places of the jumps. -/
def jumpSites (statements : List Statement) : List (String × Location) :=
  statements.flatMap fun s => s.targets.map fun label => (label, s.location)

/-- A definition leaves labels and jumps alone. -/
theorem define_frame {writes : List (String × Ty)} {location : Location} (s : Symbols) :
    (writes.foldl (fun s (name, ty) => s.define name ty location) s).labels = s.labels ∧
      (writes.foldl (fun s (name, ty) => s.define name ty location) s).jumps = s.jumps := by
  induction writes generalizing s with
  | nil => exact ⟨rfl, rfl⟩
  | cons write writes ih => exact ih (s.define write.1 write.2 location)

theorem addUsage_frame {reads : List (String × List Ty)} {location : Location} (s : Symbols) :
    (reads.foldl (addUsage location) s).labels = s.labels ∧
      (reads.foldl (addUsage location) s).jumps = s.jumps := by
  induction reads generalizing s with
  | nil => exact ⟨rfl, rfl⟩
  | cons read reads ih => exact ih (s.addUsage location read)

theorem addJump_foldl {targets : List String} {location : Location} (s : Symbols) :
    (targets.foldl (addJump location) s).labels = s.labels ∧
      (targets.foldl (addJump location) s).jumps =
        s.jumps.gather (targets.map fun label => (label, location)) := by
  induction targets generalizing s with
  | nil => exact ⟨rfl, rfl⟩
  | cons target targets ih => exact ih (s.addJump location target)

/-- What one statement adds to the labels and the jumps. -/
theorem add_eq_gather (s : Symbols) (statement : Statement) :
    (s.add statement).labels = s.labels.gather (labelSites [statement]) ∧
      (s.add statement).jumps = s.jumps.gather (jumpSites [statement]) := by
  unfold add labelSites jumpSites Statement.targets
  simp only [List.flatMap_singleton]
  cases statement.label? with
  | some label => exact ⟨rfl, rfl⟩
  | none =>
    simp only [addInstruction, addUsage_frame, addJump_foldl, define_frame, and_true]
    rfl

/-- **What statements add to the labels and the jumps.** -/
theorem foldl_add_eq_gather (statements : List Statement) (s : Symbols) :
    (statements.foldl add s).labels = s.labels.gather (labelSites statements) ∧
      (statements.foldl add s).jumps = s.jumps.gather (jumpSites statements) := by
  induction statements generalizing s with
  | nil => exact ⟨rfl, rfl⟩
  | cons statement statements ih =>
    obtain ⟨hlabels, hjumps⟩ := add_eq_gather s statement
    obtain ⟨hrest, hrest'⟩ := ih (s.add statement)
    have hsites : labelSites (statement :: statements) =
        labelSites [statement] ++ labelSites statements := by
      simp [labelSites]
    have hsites' : jumpSites (statement :: statements) =
        jumpSites [statement] ++ jumpSites statements := by
      simp [jumpSites]
    rw [List.foldl_cons, hrest, hrest', hlabels, hjumps, hsites, hsites', Dict.gather_append,
      Dict.gather_append]
    exact ⟨rfl, rfl⟩

/-! ## The warnings about a label -/

end Symbols

namespace Diagnostic

/-- Whether the diagnostic says that a label is missing. -/
def saysMissing (label : String) (d : Diagnostic) : Bool :=
  match d.finding with
  | .missingLabel l _ => l == label
  | _ => false

/-- Whether the diagnostic says that a label is defined more than once. -/
def saysDuplicate (label : String) (d : Diagnostic) : Bool :=
  match d.finding with
  | .duplicateLabel l _ => l == label
  | _ => false

end Diagnostic

namespace Symbols

/-- A filter on what entries give is a filter on the entries. -/
theorem filter_filterMap_eq {γ : Type} {f : α → Option γ} {p : γ → Bool} {q : α → Bool}
    (h : ∀ x y, f x = some y → p y = q x) (xs : List α) :
    (xs.filterMap f).filter p = (xs.filter q).filterMap f := by
  induction xs with
  | nil => rfl
  | cons x xs ih =>
    cases hf : f x with
    | none =>
      rw [List.filterMap_cons_none hf, ih]
      cases hq : q x with
      | true => rw [List.filter_cons_of_pos hq, List.filterMap_cons_none hf]
      | false => rw [List.filter_cons_of_neg (by simp [hq])]
    | some y =>
      rw [List.filterMap_cons_some hf]
      cases hq : q x with
      | true =>
        rw [List.filter_cons_of_pos hq, List.filterMap_cons_some hf,
          List.filter_cons_of_pos (by rw [h x y hf, hq]), ih]
      | false =>
        rw [List.filter_cons_of_neg (by simp [hq] : ¬ q x = true),
          List.filter_cons_of_neg (by simp [h x y hf, hq] : ¬ p y = true), ih]

variable (s : Symbols) (label : String)

theorem duplicateLabels_filter :
    s.duplicateLabels.filter (Diagnostic.saysDuplicate label) =
      if 2 ≤ (s.labels.values label).length then
        [⟨.duplicateLabel label (s.labels.values label), (s.labels.values label)[1]?⟩]
      else [] := by
  unfold duplicateLabels
  rw [filter_filterMap_eq (q := (·.1 == label)), Dict.filter_entries]
  · unfold Dict.values
    cases s.labels.get? label with
    | none => rfl
    | some sites =>
      by_cases htwo : 1 < sites.length
      · simp [htwo, Nat.succ_le_of_lt htwo]
      · simp [htwo, show ¬ 2 ≤ sites.length from htwo]
  · intro (l, sites) d hd
    simp only at hd
    split at hd
    · rw [← Option.some.inj hd]
      rfl
    · cases hd

theorem missingLabels_filter :
    s.missingLabels.filter (Diagnostic.saysMissing label) =
      if s.jumps.contains label && !s.labels.contains label &&
          !Shape.isAsciiDigits label.toList then
        [⟨.missingLabel label (s.jumps.values label), (s.jumps.values label).head?⟩]
      else [] := by
  unfold missingLabels
  rw [filter_filterMap_eq (q := (·.1 == label)), Dict.filter_entries]
  · unfold Dict.values
    rw [Dict.contains]
    cases s.jumps.get? label with
    | none => rfl
    | some sites =>
      cases hdefined : s.labels.contains label <;>
        cases hdigits : Shape.isAsciiDigits label.toList <;> simp [hdefined, hdigits]
  · intro (l, sites) d hd
    simp only at hd
    split at hd
    · cases hd
    · rw [← Option.some.inj hd]
      rfl

/-- The warnings about variables say nothing about labels. -/
theorem saysNothing_of_variable {d : Diagnostic} (h : d ∈ s.conflicts ++ s.misuses) :
    d.saysMissing label = false ∧ d.saysDuplicate label = false := by
  rcases List.mem_append.mp h with h | h
  · obtain ⟨entry, -, h⟩ := List.mem_filterMap.mp h
    obtain ⟨pair, -, rfl⟩ := Option.map_eq_some_iff.mp h
    exact ⟨rfl, rfl⟩
  · obtain ⟨⟨name, usages⟩, -, h⟩ := List.mem_flatMap.mp h
    simp only [usageWarnings] at h
    split at h
    · split at h
      · obtain rfl := List.mem_singleton.mp h
        exact ⟨rfl, rfl⟩
      · cases h
    · obtain ⟨usage, -, rfl⟩ := List.mem_map.mp h
      exact ⟨rfl, rfl⟩

theorem diagnose_filter_duplicate :
    s.diagnose.filter (Diagnostic.saysDuplicate label) =
      s.duplicateLabels.filter (Diagnostic.saysDuplicate label) := by
  have hvariables : (s.conflicts ++ s.misuses).filter (Diagnostic.saysDuplicate label) = [] := by
    rw [List.filter_eq_nil_iff]
    intro d hd
    simp [s.saysNothing_of_variable label hd]
  have hmissing : s.missingLabels.filter (Diagnostic.saysDuplicate label) = [] := by
    rw [List.filter_eq_nil_iff]
    intro d hd
    obtain ⟨⟨l, sites⟩, -, hd⟩ := List.mem_filterMap.mp hd
    simp only at hd
    split at hd
    · cases hd
    · simp [← Option.some.inj hd, Diagnostic.saysDuplicate]
  rw [diagnose, List.filter_append, List.filter_append, hvariables, hmissing, List.nil_append,
    List.append_nil]

theorem diagnose_filter_missing :
    s.diagnose.filter (Diagnostic.saysMissing label) =
      s.missingLabels.filter (Diagnostic.saysMissing label) := by
  have hvariables : (s.conflicts ++ s.misuses).filter (Diagnostic.saysMissing label) = [] := by
    rw [List.filter_eq_nil_iff]
    intro d hd
    simp [s.saysNothing_of_variable label hd]
  have hduplicates : s.duplicateLabels.filter (Diagnostic.saysMissing label) = [] := by
    rw [List.filter_eq_nil_iff]
    intro d hd
    obtain ⟨⟨l, sites⟩, -, hd⟩ := List.mem_filterMap.mp hd
    simp only at hd
    split at hd
    · simp [← Option.some.inj hd, Diagnostic.saysMissing]
    · cases hd
  rw [diagnose, List.filter_append, List.filter_append, hvariables, hduplicates, List.nil_append,
    List.nil_append]

end Symbols

end Mlog
