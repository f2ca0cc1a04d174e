/-!
# Dictionaries

A finite map from names to values that lists its entries by name in ascending order.  Ascending
order is part of the type, so a dictionary is determined by its look-ups: two that answer alike are
equal (`Dict.ext_get?`), in whatever order their entries came.
-/
set_option autoImplicit false

namespace Mlog

variable {α : Type}

namespace Entries

/-- Strictly ascending names. -/
def Ascending (es : List (String × α)) : Prop := es.Pairwise fun a b => a.1 < b.1

/-- The value of a name. -/
def get? (name : String) : List (String × α) → Option α
  | [] => none
  | (n, v) :: rest => if n = name then some v else get? name rest

/-- Puts `f` of the present value at a name. -/
def update (name : String) (f : Option α → α) : List (String × α) → List (String × α)
  | [] => [(name, f none)]
  | (n, v) :: rest =>
    if n = name then (n, f (some v)) :: rest
    else if name < n then (name, f none) :: (n, v) :: rest
    else (n, v) :: update name f rest

theorem lt_of_ne_of_not_lt {a b : String} (h₁ : a ≠ b) (h₂ : ¬ b < a) : a < b :=
  String.not_le.1 fun h => h₁ (String.le_antisymm (String.not_lt.1 h₂) h)

theorem mem_update {name : String} {f : Option α → α} {es : List (String × α)}
    {e : String × α} (h : e ∈ update name f es) : e.1 = name ∨ ∃ e' ∈ es, e'.1 = e.1 := by
  induction es with
  | nil => simp_all [update]
  | cons x rest ih =>
    obtain ⟨n, v⟩ := x
    unfold update at h
    split at h
    · next hn =>
      rcases List.mem_cons.1 h with rfl | h
      · exact .inl hn
      · exact .inr ⟨e, List.mem_cons_of_mem _ h, rfl⟩
    · split at h
      · rcases List.mem_cons.1 h with rfl | h
        · exact .inl rfl
        · exact .inr ⟨e, h, rfl⟩
      · rcases List.mem_cons.1 h with rfl | h
        · exact .inr ⟨_, List.mem_cons_self, rfl⟩
        · rcases ih h with h | ⟨e', he', h⟩
          · exact .inl h
          · exact .inr ⟨e', List.mem_cons_of_mem _ he', h⟩

theorem ascending_update {name : String} {f : Option α → α} {es : List (String × α)}
    (h : Ascending es) : Ascending (update name f es) := by
  induction es with
  | nil => simp [update, Ascending]
  | cons x rest ih =>
    obtain ⟨n, v⟩ := x
    obtain ⟨hlt, hrest⟩ := List.pairwise_cons.1 h
    unfold update
    split
    · exact List.pairwise_cons.2 ⟨hlt, hrest⟩
    · next hne =>
      split
      · next hlt' =>
        refine List.pairwise_cons.2 ⟨fun e he => ?_, h⟩
        rcases List.mem_cons.1 he with rfl | he
        · exact hlt'
        · exact String.lt_trans hlt' (hlt e he)
      · next hnlt =>
        refine List.pairwise_cons.2 ⟨fun e he => ?_, ih hrest⟩
        rcases mem_update he with h' | ⟨e', he', h'⟩
        · exact h' ▸ lt_of_ne_of_not_lt hne hnlt
        · exact h' ▸ hlt e' he'

theorem get?_eq_none_of_lt {name : String} {es : List (String × α)}
    (h : ∀ e ∈ es, name < e.1) : get? name es = none := by
  induction es with
  | nil => rfl
  | cons x rest ih =>
    have hx : x.1 ≠ name := fun h' => String.lt_irrefl name (h' ▸ h x List.mem_cons_self)
    simp [get?, hx, ih fun e he => h e (List.mem_cons_of_mem _ he)]

theorem get?_update {name : String} {f : Option α → α} {es : List (String × α)}
    (h : Ascending es) (n' : String) :
    get? n' (update name f es) = if n' = name then some (f (get? name es)) else get? n' es := by
  induction es with
  | nil => simp [update, get?, eq_comm]
  | cons x rest ih =>
    obtain ⟨n, v⟩ := x
    obtain ⟨hlt, hrest⟩ := List.pairwise_cons.1 h
    unfold update
    split
    · next hn =>
      subst hn
      by_cases hn' : n' = n <;> simp [get?, hn', eq_comm]
    · next hne =>
      split
      · next hlt' =>
        have hnone : get? name rest = none :=
          get?_eq_none_of_lt fun e he => String.lt_trans hlt' (hlt e he)
        by_cases hn' : n' = name
        · simp [get?, hne, hn', hnone]
        · simp [get?, hn', Ne.symm hn']
      · by_cases hn' : n' = name
        · subst hn'
          simp [get?, hne, ih hrest]
        · simp [get?, hn', ih hrest]

theorem mem_of_get? {name : String} {v : α} {es : List (String × α)}
    (h : get? name es = some v) : (name, v) ∈ es := by
  induction es with
  | nil => simp [get?] at h
  | cons x rest ih =>
    obtain ⟨n, w⟩ := x
    unfold get? at h
    split at h
    · simp_all
    · exact List.mem_cons_of_mem _ (ih h)

theorem eq_of_get? {es fs : List (String × α)} (hes : Ascending es) (hfs : Ascending fs)
    (h : ∀ n, get? n es = get? n fs) : es = fs := by
  induction es generalizing fs with
  | nil =>
    cases fs with
    | nil => rfl
    | cons y ys => simpa [get?] using h y.1
  | cons x xs ih =>
    cases fs with
    | nil => simpa [get?] using h x.1
    | cons y ys =>
      obtain ⟨n, v⟩ := x
      obtain ⟨m, w⟩ := y
      obtain ⟨hx, hxs⟩ := List.pairwise_cons.1 hes
      obtain ⟨hy, hys⟩ := List.pairwise_cons.1 hfs
      -- the least names agree, since each is found in the other list
      have hnm : n = m := by
        apply Classical.byContradiction
        intro hne
        have h1 := h n
        have h2 := h m
        simp only [get?, if_pos, if_neg hne, if_neg (Ne.symm hne)] at h1 h2
        have hlt1 := hy _ (mem_of_get? h1.symm)
        have hlt2 := hx _ (mem_of_get? h2)
        exact String.lt_irrefl n (String.lt_trans hlt2 hlt1)
      subst hnm
      have hv := h n
      simp only [get?, if_pos, Option.some.injEq] at hv
      subst hv
      congr 1
      refine ih hxs hys fun k => ?_
      by_cases hk : n = k
      · subst hk
        rw [get?_eq_none_of_lt hx, get?_eq_none_of_lt hy]
      · simpa [get?, hk] using h k

end Entries

/-- A finite map from names to values. -/
structure Dict (α : Type) where
  entries : List (String × α)
  ascending : Entries.Ascending entries := by exact List.Pairwise.nil

namespace Dict

/-- The dictionary without entries. -/
def empty : Dict α := ⟨[], List.Pairwise.nil⟩

instance : Inhabited (Dict α) := ⟨empty⟩

instance [DecidableEq α] : DecidableEq (Dict α) := fun d e =>
  decidable_of_iff (d.entries = e.entries) <| by
    cases d
    cases e
    simp

/-- The value of a name. -/
def get? (d : Dict α) (name : String) : Option α := Entries.get? name d.entries

/-- Whether a name has a value. -/
def contains (d : Dict α) (name : String) : Bool := (d.get? name).isSome

/-- The dictionary with `f` of the present value at a name. -/
def update (d : Dict α) (name : String) (f : Option α → α) : Dict α :=
  ⟨Entries.update name f d.entries, Entries.ascending_update d.ascending⟩

/-- The dictionary with a value at a name, in place of any other. -/
def insert (d : Dict α) (name : String) (v : α) : Dict α := d.update name fun _ => v

/-- The dictionary of a list of entries; a later entry takes the place of an earlier one. -/
def ofList (es : List (String × α)) : Dict α :=
  es.foldl (fun d (name, v) => d.insert name v) empty

/-- Two dictionaries that answer alike are equal. -/
theorem ext_get? {d e : Dict α} (h : ∀ n, d.get? n = e.get? n) : d = e := by
  obtain ⟨ds, hd⟩ := d
  obtain ⟨es, he⟩ := e
  simp only [Dict.mk.injEq]
  exact Entries.eq_of_get? hd he h

@[simp] theorem get?_empty (n : String) : (empty : Dict α).get? n = none := rfl

theorem get?_update (d : Dict α) (name : String) (f : Option α → α) (n : String) :
    (d.update name f).get? n = if n = name then some (f (d.get? name)) else d.get? n :=
  Entries.get?_update d.ascending n

theorem get?_insert (d : Dict α) (name : String) (v : α) (n : String) :
    (d.insert name v).get? n = if n = name then some v else d.get? n :=
  d.get?_update name _ n

/-! ## Dictionaries of lists -/

variable {β : Type}

/-- The list at a name; a name without one has the empty list. -/
def values (d : Dict (List β)) (name : String) : List β := (d.get? name).getD []

/-- Puts values behind those that a name has. -/
def append (d : Dict (List β)) (name : String) (vs : List β) : Dict (List β) :=
  d.update name fun present => present.getD [] ++ vs

/-- The values of both dictionaries, the first one's before the second one's. -/
def merge (d e : Dict (List β)) : Dict (List β) :=
  e.entries.foldl (fun d (name, vs) => d.append name vs) d

end Dict

end Mlog
