import Mlog.Proofs.Reference.Simultaneous

/-!
# Delimited references

To delimit a text is to write each of its references with delimiters, and nothing else is read
differently afterwards (`scan_fillChars_delimited`).  So delimiting it again changes nothing.

A text is `Closed` if text put behind it cannot change what it refers to: it has no bare name that
would be lengthened, and no `$` that would become a reference.  Delimiting closes every text in
which each `$` begins a reference (`closed_delimit`), and the values of names keep it closed
(`Closed.fillChars`).
-/
set_option autoImplicit false

namespace Mlog

namespace Piece

/-- The piece with delimiters around its name. -/
def delimit : Piece → Piece
  | bare name => delimited name
  | p => p

/-- A piece that is read the same whatever follows it. -/
def Closed : Piece → Prop
  | char c => c ≠ '$'
  | bare _ => False
  | delimited name => name ≠ [] ∧ ∀ c ∈ name, Reference.isDelimitedChar c = true

theorem delimit_delimit (p : Piece) : p.delimit.delimit = p.delimit := by
  cases p <;> rfl

theorem Closed.delimit_eq {p : Piece} (h : p.Closed) : p.delimit = p := by
  cases p with
  | char c => rfl
  | bare name => exact h.elim
  | delimited name => rfl

theorem delimit_of_name? {p : Piece} {name : String} (h : p.name? = some name) :
    p.delimit = .delimited name.toList := by
  cases p with
  | char c => cases h
  | bare cs | delimited cs =>
    obtain rfl := Option.some.inj h
    rw [String.toList_ofList]
    rfl

section Filled

variable {value : String → Option String}

/-- What a piece becomes when its name gets a value: the characters of the value. -/
def filled (value : String → Option String) (p : Piece) : List Piece :=
  match p.name?.bind value with
  | some text => text.toList.map .char
  | none => [p]

theorem fill_eq (value : String → Option String) (p : Piece) :
    p.fill value = (p.filled value).flatMap source := by
  unfold fill filled
  cases p.name?.bind value with
  | none => simp
  | some text => simp [List.flatMap_map, source]

theorem Closed.filled {p : Piece} (h : p.Closed)
    (hplain : ∀ name text, value name = some text → '$' ∉ text.toList) :
    ∀ q ∈ p.filled value, q.Closed := by
  unfold Piece.filled
  cases hvalue : p.name?.bind value with
  | none => simpa using h
  | some text =>
    obtain ⟨name, -, hname⟩ := Option.bind_eq_some_iff.mp hvalue
    intro q hq
    obtain ⟨c, hc, rfl⟩ := List.mem_map.mp hq
    rintro rfl
    exact hplain name text hname hc

end Filled

end Piece

namespace Reference

/-! ## The pieces of a delimited text -/

theorem scan_of_stray {cs : List Char} (h : target? cs = none) :
    scan 0 ('$' :: cs) = .char '$' :: scan 0 cs := by
  cases hd : atDollar? cs with
  | none => exact scan_dollar_none hd
  | some p => exact absurd h (target?_ne_none hd)

/-- A reference becomes a name with delimiters. -/
theorem scan_of_refers {name : String} {cs rest : List Char} (h : Refers name cs rest) :
    (Piece.delimited name.toList).Closed ∧
      ∃ p, p.delimit = .delimited name.toList ∧ scan 0 ('$' :: cs) = p :: scan 0 rest := by
  obtain ⟨p, hp, hname, hsource⟩ := refers_iff.mp h
  refine ⟨isDelimitedName_iff.mp ?_, p, Piece.delimit_of_name? hname, scan_of_atDollar? hp hsource⟩
  rcases h with ⟨hbare, -⟩ | ⟨hdelimited, -⟩
  · obtain ⟨c, ds, hcs, -⟩ := isBareName_iff.mp hbare
    refine isDelimitedName_iff.mpr ⟨by simp [hcs], fun d hd => ?_⟩
    exact isDelimitedChar_of_isWord (isWord_of_isBareName hbare d hd)
  · exact hdelimited

/-- A name with delimiters is read as such, whatever follows. -/
theorem scan_source_delimited {name : List Char} (h : (Piece.delimited name).Closed)
    (b : List Char) :
    scan 0 ((Piece.delimited name).source ++ b) = .delimited name :: scan 0 b := by
  have hcs : (Piece.delimited name).source ++ b = '$' :: '(' :: (name ++ ')' :: b) := by
    simp [Piece.source]
  rw [hcs]
  exact scan_of_atDollar? (atDollar?_delimited h.1 h.2 b) hcs.symm

/-- What a name becomes when it is delimited. -/
def delimited (name : String) : Option String := some ("$(" ++ name ++ ")")

theorem toList_delimit (text : String) : (delimit text).toList = fillChars delimited text.toList :=
  toList_fill delimited text

theorem fillChars_delimited (cs : List Char) :
    fillChars delimited cs = (scan 0 cs).flatMap fun p => p.delimit.source := by
  have hfill : Piece.fill delimited = fun p => p.delimit.source := by
    funext p
    cases p <;> simp [Piece.fill, Piece.name?, Piece.delimit, Piece.source, delimited]
  rw [fillChars, hfill]

theorem fillChars_delimited_of_refers {name : String} {cs rest : List Char}
    (h : Refers name cs rest) :
    fillChars delimited ('$' :: cs) =
      (Piece.delimited name.toList).source ++ fillChars delimited rest := by
  rw [fillChars_of_refers h (show delimited name = some _ from rfl)]
  simp [Piece.source]

/-- What stands behind a `$` refers to the same name when its own references are delimited: they
begin with a `$`, and no reference goes beyond that. -/
theorem target?_fillChars_delimited (cs : List Char) :
    target? (fillChars delimited cs) = target? cs := by
  by_cases hmem : '$' ∈ cs
  · obtain ⟨w, next, rfl, hw⟩ := List.eq_append_cons_of_mem hmem
    obtain ⟨ds, hds⟩ : ∃ ds, fillChars delimited ('$' :: next) = '$' :: ds := by
      cases ht : target? next with
      | none => exact ⟨_, fillChars_of_stray ht delimited⟩
      | some name =>
        obtain ⟨rest, hr⟩ := target?_eq_some_iff.mp ht
        exact ⟨_, fillChars_delimited_of_refers hr⟩
    rw [fillChars_append_of_not_mem hw, hds, target?_append (breaks_dollar ds),
      target?_append (breaks_dollar next)]
  · rw [fillChars_of_not_mem hmem]

/-- **Delimiting keeps the pieces of a text**, and puts delimiters around their names. -/
theorem scan_fillChars_delimited (cs : List Char) :
    scan 0 (fillChars delimited cs) = (scan 0 cs).map Piece.delimit := by
  induction cs using text_induction with
  | nil => rfl
  | plain c cs hc ih =>
    rw [fillChars_cons hc, scan_cons hc, scan_cons hc, ih]
    rfl
  | stray cs ht ih =>
    have hstray : target? (fillChars delimited cs) = none := by
      rw [target?_fillChars_delimited, ht]
    rw [fillChars_of_stray ht, scan_of_stray ht, scan_of_stray hstray, ih]
    rfl
  | reference name cs rest hr ih =>
    obtain ⟨hclosed, p, hp, hscan⟩ := scan_of_refers hr
    rw [fillChars_delimited_of_refers hr, scan_source_delimited hclosed, ih, hscan, List.map_cons,
      hp]

theorem delimit_delimit (text : String) : delimit (delimit text) = delimit text := by
  apply String.toList_injective
  rw [toList_delimit, toList_delimit, fillChars_delimited, scan_fillChars_delimited,
    List.flatMap_map, fillChars_delimited]
  simp only [Piece.delimit_delimit]

/-! ## Closed texts -/

/-- A text that is read the same whatever follows it. -/
def Closed (cs : List Char) : Prop := ∀ p ∈ scan 0 cs, p.Closed

theorem scan_sources {ps : List Piece} (h : ∀ p ∈ ps, p.Closed) (b : List Char) :
    scan 0 (ps.flatMap Piece.source ++ b) = ps ++ scan 0 b := by
  induction ps with
  | nil => rfl
  | cons p ps ih =>
    obtain ⟨hp, hps⟩ := List.forall_mem_cons.mp h
    rw [List.flatMap_cons, List.append_assoc, List.cons_append, ← ih hps]
    cases p with
    | char c => exact scan_cons hp _
    | bare name => exact hp.elim
    | delimited name => exact scan_source_delimited hp _

/-- Closed pieces make a closed text. -/
theorem closed_sources {ps : List Piece} (h : ∀ p ∈ ps, p.Closed) :
    Closed (ps.flatMap Piece.source) := by
  have hscan := scan_sources h []
  rw [List.append_nil, show scan 0 [] = [] from rfl, List.append_nil] at hscan
  rw [Closed, hscan]
  exact h

namespace Closed

variable {cs : List Char}

theorem scan_append (h : Closed cs) (b : List Char) :
    scan 0 (cs ++ b) = scan 0 cs ++ scan 0 b := by
  have hscan := scan_sources h b
  rwa [flatMap_source_scan] at hscan

/-- **A closed text is filled without regard to what follows it.** -/
theorem fillChars_append (h : Closed cs) (value : String → Option String) (b : List Char) :
    fillChars value (cs ++ b) = fillChars value cs ++ fillChars value b := by
  rw [Reference.fillChars, h.scan_append, List.flatMap_append]
  rfl

theorem fillChars_delimited_eq (h : Closed cs) : fillChars delimited cs = cs := by
  rw [fillChars_delimited]
  have hpieces : (scan 0 cs).map (fun p => p.delimit.source) = (scan 0 cs).map Piece.source :=
    List.map_congr_left fun p hp => by rw [(h p hp).delimit_eq]
  rw [List.flatMap_def, hpieces, ← List.flatMap_def, flatMap_source_scan]

/-- Values without `$` keep a text closed. -/
theorem fillChars (h : Closed cs) {value : String → Option String}
    (hplain : ∀ name text, value name = some text → '$' ∉ text.toList) :
    Closed (Reference.fillChars value cs) := by
  have hpieces : Reference.fillChars value cs =
      ((scan 0 cs).flatMap (Piece.filled value)).flatMap Piece.source := by
    rw [List.flatMap_assoc, Reference.fillChars]
    congr 1
    funext p
    exact p.fill_eq value
  rw [hpieces]
  refine closed_sources fun q hq => ?_
  obtain ⟨p, hp, hq⟩ := List.mem_flatMap.mp hq
  exact (h p hp).filled hplain q hq

end Closed

/-- Every `$` of a text begins a reference that is written to its end. -/
def Complete (text : String) : Prop :=
  ∀ cs ∈ behindDollars text.toList, (target? cs).isSome = true

instance (text : String) : Decidable (Complete text) :=
  inferInstanceAs (Decidable (∀ cs ∈ behindDollars text.toList, (target? cs).isSome = true))

/-- **Delimiting closes a text** in which every `$` begins a reference. -/
theorem closed_delimit {text : String} (h : Complete text) : Closed (delimit text).toList := by
  rw [toList_delimit, Closed, scan_fillChars_delimited]
  unfold Complete at h
  generalize text.toList = cs at h
  induction cs using text_induction with
  | nil => exact List.forall_mem_nil _
  | plain c cs hc ih =>
    rw [behindDollars_cons hc] at h
    rw [scan_cons hc, List.map_cons, List.forall_mem_cons]
    exact ⟨hc, ih h⟩
  | stray cs ht ih =>
    rw [behindDollars_dollar, List.forall_mem_cons, ht] at h
    exact absurd h.1 (by decide)
  | reference name cs rest hr ih =>
    obtain ⟨hclosed, p, hp, hscan⟩ := scan_of_refers hr
    obtain ⟨w, rfl, hw⟩ := hr.not_mem
    rw [behindDollars_dollar, List.forall_mem_cons, behindDollars_append hw] at h
    rw [hscan, List.map_cons, hp, List.forall_mem_cons]
    exact ⟨hclosed, ih h.2⟩

end Reference

end Mlog
