import Mlog.Proofs.Symbols.Record

/-!
# Merging symbols

Under each name a merged dictionary has what both had, the first one's values before the second
one's (`get?_merge`).  So merging is associative and the empty symbols change nothing.

Recording a statement looks at what is recorded already in one place only: a definition is put in
once for each type and place.  Symbols that have no definition at the place of a statement may
therefore be merged in front before or after it is recorded (`merge_add`), and statements that share
no place may be recorded in two parts and merged (`foldl_add_append`).
-/
set_option autoImplicit false

namespace Mlog

namespace Dict

variable {β : Type}

/-- Merging the entries of a list, one after the other. -/
theorem get?_foldl_append {es : List (String × List β)} (hes : Entries.Ascending es)
    (d : Dict (List β)) (name : String) :
    (es.foldl (fun d (name, vs) => d.append name vs) d).get? name =
      match Entries.get? name es with
      | none => d.get? name
      | some vs => some (d.values name ++ vs) := by
  induction es generalizing d with
  | nil => rfl
  | cons entry es ih =>
    obtain ⟨n, vs⟩ := entry
    obtain ⟨hlt, hes⟩ := List.pairwise_cons.mp hes
    rw [List.foldl_cons, ih hes, Entries.get?]
    by_cases hn : n = name
    · -- the names ascend, so no later entry adds to this one
      subst hn
      rw [if_pos rfl, Entries.get?_eq_none_of_lt hlt]
      simp only [get?_append, if_true]
    · rw [if_neg hn]
      simp only [values, get?_append, if_neg (Ne.symm hn)]

variable (d e f : Dict (List β)) (name : String)

theorem get?_merge :
    (d.merge e).get? name =
      match e.get? name with
      | none => d.get? name
      | some vs => some (d.values name ++ vs) :=
  get?_foldl_append e.ascending d name

theorem values_merge : (d.merge e).values name = d.values name ++ e.values name := by
  rw [values, get?_merge]
  cases he : e.get? name <;> simp [values, he]

theorem merge_assoc : (d.merge e).merge f = d.merge (e.merge f) := by
  apply ext_get?
  intro n
  rw [get?_merge, get?_merge, get?_merge, get?_merge, values_merge]
  cases f.get? n with
  | none => rfl
  | some vs => simp only [List.append_assoc]

theorem merge_empty : d.merge .empty = d := rfl

theorem empty_merge : Dict.empty.merge d = d := by
  apply ext_get?
  intro n
  rw [get?_merge]
  cases d.get? n <;> rfl

/-- What is put behind a name's values may be put there before or after merging. -/
theorem merge_append (vs : List β) : (d.merge e).append name vs = d.merge (e.append name vs) := by
  apply ext_get?
  intro n
  rw [get?_append, get?_merge, get?_merge, get?_append]
  by_cases hn : n = name
  · rw [if_pos hn, if_pos hn, values_merge, List.append_assoc, hn]
  · rw [if_neg hn, if_neg hn]

end Dict

namespace Symbols

/-! ## The laws of merging -/

theorem merge_assoc (a b c : Symbols) : (a.merge b).merge c = a.merge (b.merge c) := by
  simp only [merge, Dict.merge_assoc]

theorem merge_empty (s : Symbols) : s.merge empty = s := rfl

theorem empty_merge (s : Symbols) : empty.merge s = s := by
  show Symbols.mk (Dict.empty.merge s.definitions) (Dict.empty.merge s.usages)
    (Dict.empty.merge s.labels) (Dict.empty.merge s.jumps) = s
  simp only [Dict.empty_merge]

/-! ## What a definition does -/

/-- The symbols have no definition at a place. -/
def Avoids (s : Symbols) (location : Location) : Prop :=
  ∀ name, ∀ d ∈ s.definitions.values name, d.location ≠ location

variable {s t : Symbols} {name : String} {ty : Ty} {location : Location}

theorem get?_define (s : Symbols) (name : String) (ty : Ty) (location : Location) (n : String) :
    (s.define name ty location).definitions.get? n =
      if n = name then
        some (if ⟨ty, location⟩ ∈ s.definitions.values name then s.definitions.values name
          else s.definitions.values name ++ [⟨ty, location⟩])
      else s.definitions.get? n := by
  simp only [define, Dict.get?_update, List.contains_iff_mem]
  rfl

theorem mem_define {d : Definition} {n : String}
    (h : d ∈ (s.define name ty location).definitions.values n) :
    d ∈ s.definitions.values n ∨ d.location = location := by
  rw [Dict.values, get?_define] at h
  by_cases hn : n = name
  · rw [if_pos hn, Option.getD_some] at h
    split at h
    · exact Or.inl (hn ▸ h)
    · rcases List.mem_append.mp h with h | h
      · exact Or.inl (hn ▸ h)
      · rw [List.mem_singleton.mp h]
        exact Or.inr rfl
  · rw [if_neg hn] at h
    exact Or.inl h

/-- A definition is a new one for merged symbols if it is for those it belongs to. -/
theorem merge_define (h : s.Avoids location) (t : Symbols) (name : String) (ty : Ty) :
    (s.merge t).define name ty location = s.merge (t.define name ty location) := by
  have hnew : ⟨ty, location⟩ ∉ s.definitions.values name := fun hmem => h name _ hmem rfl
  have hdefinitions : ((s.merge t).define name ty location).definitions =
      s.definitions.merge (t.define name ty location).definitions := by
    apply Dict.ext_get?
    intro n
    rw [get?_define, Dict.get?_merge, get?_define]
    by_cases hn : n = name
    · rw [if_pos hn, if_pos hn]
      simp only [merge, Dict.values_merge, List.mem_append, hnew, false_or, hn]
      split
      · rfl
      · rw [List.append_assoc]
    · rw [if_neg hn, if_neg hn]
      exact Dict.get?_merge ..
  show Symbols.mk ((s.merge t).define name ty location).definitions _ _ _ = _
  rw [hdefinitions]
  rfl

/-! ## Recording statements -/

/-- The definitions that a line writes, put in one after the other. -/
theorem merge_define_foldl (h : s.Avoids location) (t : Symbols) (writes : List (String × Ty)) :
    writes.foldl (fun s (name, ty) => s.define name ty location) (s.merge t) =
      s.merge (writes.foldl (fun s (name, ty) => s.define name ty location) t) :=
  List.foldl_hom s.merge fun t write => merge_define h t write.1 write.2

/-- **Symbols may be merged in front before or after a statement is recorded**, unless they have
definitions at its place. -/
theorem merge_add {statement : Statement} (h : s.Avoids statement.location) (t : Symbols) :
    (s.merge t).add statement = s.merge (t.add statement) := by
  unfold add
  cases statement.label? with
  | some label =>
    show Symbols.mk _ _ ((s.labels.merge t.labels).append label _) _ = _
    rw [Dict.merge_append]
    rfl
  | none =>
    simp only [addInstruction]
    have hjump : ∀ t label, (s.merge t).addJump statement.location label =
        s.merge (t.addJump statement.location label) := by
      intro t label
      show Symbols.mk _ _ _ ((s.jumps.merge t.jumps).append label _) = _
      rw [Dict.merge_append]
      rfl
    have husage : ∀ t usage, (s.merge t).addUsage statement.location usage =
        s.merge (t.addUsage statement.location usage) := by
      intro t usage
      show Symbols.mk _ ((s.usages.merge t.usages).append usage.1 _) _ _ = _
      rw [Dict.merge_append]
      rfl
    rw [merge_define_foldl h, List.foldl_hom s.merge hjump, List.foldl_hom s.merge husage]

theorem merge_foldl_add {statements : List Statement}
    (h : ∀ statement ∈ statements, s.Avoids statement.location) (t : Symbols) :
    statements.foldl add (s.merge t) = s.merge (statements.foldl add t) := by
  induction statements generalizing t with
  | nil => rfl
  | cons statement statements ih =>
    obtain ⟨hfirst, hrest⟩ := List.forall_mem_cons.mp h
    rw [List.foldl_cons, List.foldl_cons, merge_add hfirst, ih hrest]

/-! ## Where definitions come from -/

theorem definitions_foldl {α : Type} {f : Symbols → α → Symbols}
    (h : ∀ s a, (f s a).definitions = s.definitions) (as : List α) (s : Symbols) :
    (as.foldl f s).definitions = s.definitions := by
  induction as generalizing s with
  | nil => rfl
  | cons a as ih => rw [List.foldl_cons, ih, h]

theorem mem_define_foldl {d : Definition} {n : String} {writes : List (String × Ty)}
    (h : d ∈ (writes.foldl (fun s (name, ty) => s.define name ty location)
      s).definitions.values n) :
    d ∈ s.definitions.values n ∨ d.location = location := by
  induction writes generalizing s with
  | nil => exact Or.inl h
  | cons write writes ih =>
    rcases ih h with h | h
    · exact mem_define h
    · exact Or.inr h

theorem mem_add {statement : Statement} {d : Definition} {n : String}
    (h : d ∈ (s.add statement).definitions.values n) :
    d ∈ s.definitions.values n ∨ d.location = statement.location := by
  unfold add at h
  split at h
  · exact Or.inl h
  · rw [addInstruction, definitions_foldl (f := addUsage statement.location) fun _ _ => rfl,
      definitions_foldl (f := addJump statement.location) fun _ _ => rfl] at h
    exact mem_define_foldl h

/-- Every definition is at the place of a statement that was recorded. -/
theorem mem_foldl_add {statements : List Statement} {d : Definition} {n : String}
    (h : d ∈ (statements.foldl add s).definitions.values n) :
    d ∈ s.definitions.values n ∨ ∃ statement ∈ statements, d.location = statement.location := by
  induction statements generalizing s with
  | nil => exact Or.inl h
  | cons statement statements ih =>
    rcases ih h with h | ⟨other, hother, h⟩
    · rcases mem_add h with h | h
      · exact Or.inl h
      · exact Or.inr ⟨statement, List.mem_cons_self, h⟩
    · exact Or.inr ⟨other, List.mem_cons_of_mem _ hother, h⟩

/-- **Statements that share no place may be recorded in two parts and merged.** -/
theorem foldl_add_append {xs ys : List Statement}
    (h : ∀ x ∈ xs, ∀ y ∈ ys, x.location ≠ y.location) :
    (xs ++ ys).foldl add empty = (xs.foldl add empty).merge (ys.foldl add empty) := by
  have havoids : ∀ y ∈ ys, (xs.foldl add empty).Avoids y.location := by
    intro y hy name d hd
    rcases mem_foldl_add hd with hd | ⟨x, hx, hd⟩
    · cases hd
    · rw [hd]
      exact h x hx y hy
  rw [List.foldl_append, ← merge_foldl_add havoids, merge_empty]

end Symbols

end Mlog
