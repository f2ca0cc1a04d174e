import Mlog.Reference

/-!
# Where references are read

A text is read from left to right, but its references do not depend on each other: a reference
holds one `$`, at its start, so each `$` is read on its own.  `scan_append` says this in general:
a text may be read in two parts if the second begins with a character that no reference can take
in, and `$` is such a character.

`Refers name cs rest` says without the reader what the text `cs` behind a `$` must be for it to
begin with a reference to `name` and go on with `rest`; `refers_iff` relates the two, and
`text_induction` is the induction that follows the reader.
-/
set_option autoImplicit false

namespace Mlog.Reference

/-! ## Reading a text in parts -/

/-- Whether a character ends every reference in front of it, finished or not. -/
def isBreak (c : Char) : Bool := !isDelimitedChar c && c != '(' && c != ')'

theorem isDelimitedChar_of_isWord {c : Char} (h : Text.isWord c = true) :
    isDelimitedChar c = true := by
  simp [isDelimitedChar, h]

/-- A text that begins with a break, or is empty. -/
def Breaks (cs : List Char) : Prop := ∀ c, cs.head? = some c → isBreak c = true

theorem breaks_cons {c : Char} (h : isBreak c = true) (cs : List Char) : Breaks (c :: cs) := by
  intro d hd
  obtain rfl : c = d := by simpa using hd
  exact h

theorem breaks_dollar (cs : List Char) : Breaks ('$' :: cs) := breaks_cons (by decide) cs

section Stop

variable {p : Char → Bool} {b : List Char}

theorem takeWhile_append_of_stop (hb : ∀ c, b.head? = some c → p c = false) (a : List Char) :
    (a ++ b).takeWhile p = a.takeWhile p := by
  induction a with
  | nil =>
    cases b with
    | nil => rfl
    | cons c b => simp [hb c rfl]
  | cons c a ih =>
    cases hc : p c <;> simp [hc, ih]

theorem dropWhile_append_of_stop (hb : ∀ c, b.head? = some c → p c = false) (a : List Char) :
    (a ++ b).dropWhile p = a.dropWhile p ++ b := by
  induction a with
  | nil =>
    cases b with
    | nil => rfl
    | cons c b => simp [hb c rfl]
  | cons c a ih =>
    cases hc : p c <;> simp [hc, ih]

end Stop

/-- The reference behind a `$` is not changed by what comes after a break. -/
theorem atDollar?_append {b : List Char} (hb : Breaks b) (w : List Char) :
    atDollar? (w ++ b) = atDollar? w := by
  have hbreak : ∀ c, b.head? = some c →
      isDelimitedChar c = false ∧ c ≠ '(' ∧ c ≠ ')' := by
    intro c hc
    simpa [isBreak, and_assoc] using hb c hc
  have hword : ∀ c, b.head? = some c → Text.isWord c = false := by
    intro c hc
    cases hw : Text.isWord c with
    | false => rfl
    | true => exact absurd (isDelimitedChar_of_isWord hw) (by simp [(hbreak c hc).1])
  cases w with
  | nil =>
    cases b with
    | nil => rfl
    | cons c b =>
      have hstart : Text.isNameStart c = false := by
        cases hs : Text.isNameStart c with
        | false => rfl
        | true => exact absurd (Text.isWord_of_isNameStart hs) (by simp [hword c rfl])
      simp [atDollar?, (hbreak c rfl).2.1, hstart]
  | cons c w =>
    have hclose : ((w ++ b).dropWhile isDelimitedChar).head? = some ')' ↔
        (w.dropWhile isDelimitedChar).head? = some ')' := by
      rw [dropWhile_append_of_stop fun c hc => (hbreak c hc).1]
      cases hd : w.dropWhile isDelimitedChar with
      | nil =>
        simp only [List.nil_append, List.head?_nil, reduceCtorEq, iff_false]
        exact fun h => (hbreak _ h).2.2 rfl
      | cons d ds => simp
    simp only [List.cons_append, atDollar?, Bool.and_eq_true, beq_iff_eq, hclose,
      takeWhile_append_of_stop fun c hc => (hbreak c hc).1, takeWhile_append_of_stop hword]

theorem scan_dollar_some {cs : List Char} {p : Piece} (h : atDollar? cs = some p) :
    scan 0 ('$' :: cs) = p :: scan 0 (cs.drop (p.source.length - 1)) := by
  rw [← scan_drop]
  simp [scan, h]

theorem scan_dollar_none {cs : List Char} (h : atDollar? cs = none) :
    scan 0 ('$' :: cs) = .char '$' :: scan 0 cs := by
  simp [scan, h]

/-- A reference is one piece, and what follows it is read after it. -/
theorem scan_of_atDollar? {cs rest : List Char} {p : Piece} (hp : atDollar? cs = some p)
    (hsource : '$' :: cs = p.source ++ rest) : scan 0 ('$' :: cs) = p :: scan 0 rest := by
  have hdrop : cs.drop (p.source.length - 1) = rest := by
    have htail := congrArg (List.drop p.source.length) hsource
    rw [List.drop_left, ← Nat.sub_add_cancel p.length_source_pos, List.drop_succ_cons] at htail
    exact htail
  rw [scan_dollar_some hp, hdrop]

theorem scan_cons {c : Char} (hc : c ≠ '$') (cs : List Char) :
    scan 0 (c :: cs) = .char c :: scan 0 cs := by
  simp [scan, hc]

/-- **A text may be read in two parts** that meet at a break. -/
theorem scan_append {b : List Char} (hb : Breaks b) (a : List Char) :
    scan 0 (a ++ b) = scan 0 a ++ scan 0 b := by
  -- on the length of the first part, since a reference is read in one go
  induction h : a.length using Nat.strongRecOn generalizing a with
  | ind n ih =>
    subst h
    cases a with
    | nil => rfl
    | cons c a =>
      by_cases hc : c = '$'
      · subst hc
        cases hd : atDollar? a with
        | none =>
          have hd' : atDollar? (a ++ b) = none := by rw [atDollar?_append hb, hd]
          rw [List.cons_append, scan_dollar_none hd, scan_dollar_none hd',
            ih a.length (by simp) a rfl]
          rfl
        | some p =>
          have hd' : atDollar? (a ++ b) = some p := by rw [atDollar?_append hb, hd]
          obtain ⟨rest, hrest⟩ := source_atDollar? hd
          have hpos := p.length_source_pos
          have hlen := congrArg List.length hrest
          simp only [List.length_cons, List.length_append] at hlen
          have hshorter : (a.drop (p.source.length - 1)).length < ('$' :: a).length := by
            rw [List.length_drop, List.length_cons]
            omega
          rw [List.cons_append, scan_dollar_some hd, scan_dollar_some hd',
            List.drop_append_of_le_length (by omega), ih _ hshorter _ rfl]
          rfl
      · rw [List.cons_append, scan_cons hc, scan_cons hc, ih a.length (by simp) a rfl]
        rfl

/-- A text without `$` has no references. -/
theorem scan_of_not_mem {cs : List Char} (h : '$' ∉ cs) : scan 0 cs = cs.map .char := by
  induction cs with
  | nil => rfl
  | cons c cs ih =>
    rw [List.mem_cons, not_or] at h
    rw [scan_cons (Ne.symm h.1), ih h.2]
    rfl

/-! ## What refers to what -/

/-- Whether a name can be referred to without delimiters. -/
def isBareName (name : String) : Bool :=
  match name.toList with
  | [] => false
  | c :: cs => Text.isNameStart c && cs.all Text.isWord

/-- Whether a name can be referred to with delimiters. -/
def isDelimitedName (name : String) : Bool :=
  !name.toList.isEmpty && name.toList.all isDelimitedChar

/-- The text behind a `$` refers to a name, and `rest` is what follows the reference. -/
def Refers (name : String) (cs rest : List Char) : Prop :=
  (isBareName name = true ∧ cs = name.toList ++ rest ∧
      ∀ c, rest.head? = some c → Text.isWord c = false) ∨
    (isDelimitedName name = true ∧ cs = '(' :: (name.toList ++ ')' :: rest))

theorem isBareName_iff {name : String} :
    isBareName name = true ↔ ∃ c cs, name.toList = c :: cs ∧ Text.isNameStart c = true ∧
      ∀ d ∈ cs, Text.isWord d = true := by
  unfold isBareName
  cases name.toList with
  | nil => simp
  | cons c cs =>
    simp only [Bool.and_eq_true, List.all_eq_true, List.cons.injEq]
    constructor
    · exact fun h => ⟨c, cs, ⟨rfl, rfl⟩, h⟩
    · rintro ⟨d, ds, ⟨rfl, rfl⟩, h⟩
      exact h

theorem isDelimitedName_iff {name : String} :
    isDelimitedName name = true ↔
      name.toList ≠ [] ∧ ∀ d ∈ name.toList, isDelimitedChar d = true := by
  simp [isDelimitedName]

theorem isWord_of_isBareName {name : String} (h : isBareName name = true) :
    ∀ c ∈ name.toList, Text.isWord c = true := by
  obtain ⟨c, cs, hcs, hc, hw⟩ := isBareName_iff.mp h
  rw [hcs]
  intro d hd
  rcases List.mem_cons.mp hd with rfl | hd
  · exact Text.isWord_of_isNameStart hc
  · exact hw d hd

/-- A run of characters with a property ends at the first without it. -/
theorem takeWhile_append_stop {p : Char → Bool} {a b : List Char} (ha : ∀ c ∈ a, p c = true)
    (hb : ∀ c, b.head? = some c → p c = false) :
    (a ++ b).takeWhile p = a ∧ (a ++ b).dropWhile p = b := by
  rw [List.takeWhile_append_of_pos ha, List.dropWhile_append_of_pos ha]
  cases b with
  | nil => simp
  | cons c b => simp [hb c rfl]

/-- A name with delimiters is read as such, whatever follows. -/
theorem atDollar?_delimited {name : List Char} (hne : name ≠ [])
    (hall : ∀ c ∈ name, isDelimitedChar c = true) (rest : List Char) :
    atDollar? ('(' :: (name ++ ')' :: rest)) = some (.delimited name) := by
  have hstop : ∀ c, (')' :: rest).head? = some c → isDelimitedChar c = false := by
    intro c hc
    obtain rfl : ')' = c := by simpa using hc
    decide
  obtain ⟨htake, hdrop⟩ := takeWhile_append_stop hall hstop
  simp [atDollar?, htake, hdrop, hne]

/-- What the reader finds is what the text refers to. -/
theorem refers_iff {name : String} {cs rest : List Char} :
    Refers name cs rest ↔
      ∃ p, atDollar? cs = some p ∧ p.name? = some name ∧ '$' :: cs = p.source ++ rest := by
  constructor
  · rintro (⟨hbare, rfl, hrest⟩ | ⟨hdel, rfl⟩)
    · obtain ⟨c, ds, hname, hc, hw⟩ := isBareName_iff.mp hbare
      have hparen : c ≠ '(' := by
        rintro rfl
        exact absurd hc (by decide)
      refine ⟨.bare (c :: ds), ?_, ?_, by simp [Piece.source, hname]⟩
      · rw [hname, List.cons_append]
        simp [atDollar?, hparen, hc, (takeWhile_append_stop hw hrest).1]
      · rw [Piece.name?, ← hname, String.ofList_toList]
    · obtain ⟨hne, hall⟩ := isDelimitedName_iff.mp hdel
      exact ⟨.delimited name.toList, atDollar?_delimited hne hall rest, by simp [Piece.name?],
        by simp [Piece.source]⟩
  · rintro ⟨p, hp, hname, hsource⟩
    cases cs with
    | nil => exact absurd hp (by simp [atDollar?])
    | cons c cs =>
      simp only [atDollar?] at hp
      split at hp
      · split at hp
        · next hcond =>
          obtain rfl := Option.some.inj hp
          obtain rfl := Option.some.inj hname
          simp only [Bool.and_eq_true] at hcond
          refine Or.inr ⟨isDelimitedName_iff.mpr ⟨by simpa using hcond.1, ?_⟩, ?_⟩
          · simpa using List.all_eq_true.mp (List.all_takeWhile (p := isDelimitedChar) (l := cs))
          · simpa [Piece.source] using hsource
        · exact absurd hp (by simp)
      · split at hp
        · next hc =>
          obtain rfl := Option.some.inj hp
          obtain rfl := Option.some.inj hname
          refine Or.inl ⟨isBareName_iff.mpr ⟨c, cs.takeWhile Text.isWord, by simp, hc, ?_⟩, ?_, ?_⟩
          · exact List.all_eq_true.mp List.all_takeWhile
          · simpa [Piece.source] using hsource
          · -- the name takes in every word character there is
            have hrest : rest = cs.dropWhile Text.isWord := by
              have hsplit := List.takeWhile_append_dropWhile (p := Text.isWord) (l := cs)
              have heq : cs = cs.takeWhile Text.isWord ++ rest := by
                simpa [Piece.source] using hsource
              exact (List.append_cancel_left (hsplit.trans heq)).symm
            intro d hd
            have hnot := List.head?_dropWhile_not Text.isWord cs
            rw [← hrest, hd] at hnot
            simpa using hnot
        · exact absurd hp (by simp)

/-- A text refers to one name at most. -/
theorem Refers.unique {m n : String} {cs r r' : List Char} (h : Refers m cs r)
    (h' : Refers n cs r') : m = n ∧ r = r' := by
  obtain ⟨p, hp, hname, hsource⟩ := refers_iff.mp h
  obtain ⟨q, hq, hname', hsource'⟩ := refers_iff.mp h'
  obtain rfl : p = q := Option.some.inj (hp.symm.trans hq)
  exact ⟨Option.some.inj (hname.symm.trans hname'),
    List.append_cancel_left (hsource.symm.trans hsource')⟩

/-- A reference takes in no break, so it holds no second `$`. -/
theorem Refers.split {name : String} {cs rest : List Char} (h : Refers name cs rest) :
    ∃ p, cs = p ++ rest ∧ ∀ c ∈ p, isBreak c = false := by
  rcases h with ⟨hbare, rfl, -⟩ | ⟨hdel, rfl⟩
  · refine ⟨name.toList, rfl, fun c hc => ?_⟩
    simp [isBreak, isDelimitedChar_of_isWord (isWord_of_isBareName hbare c hc)]
  · refine ⟨'(' :: (name.toList ++ [')']), by simp, fun c hc => ?_⟩
    simp only [List.mem_cons, List.mem_append, List.mem_nil_iff, or_false] at hc
    rcases hc with rfl | hc | rfl
    · decide
    · simp [isBreak, (isDelimitedName_iff.mp hdel).2 c hc]
    · decide

theorem Refers.append {b : List Char} (hb : Breaks b) {name : String} {cs rest : List Char}
    (h : Refers name cs rest) : Refers name (cs ++ b) (rest ++ b) := by
  obtain ⟨p, hp, hname, hsource⟩ := refers_iff.mp h
  refine refers_iff.mpr ⟨p, by rw [atDollar?_append hb, hp], hname, ?_⟩
  rw [← List.cons_append, hsource, List.append_assoc]

/-- The name that the text behind a `$` refers to. -/
def target? (cs : List Char) : Option String := (atDollar? cs).bind Piece.name?

theorem target?_eq_some_iff {cs : List Char} {name : String} :
    target? cs = some name ↔ ∃ rest, Refers name cs rest := by
  constructor
  · intro h
    obtain ⟨p, hp, hname⟩ := Option.bind_eq_some_iff.mp h
    obtain ⟨rest, hrest⟩ := source_atDollar? hp
    exact ⟨rest, refers_iff.mpr ⟨p, hp, hname, hrest⟩⟩
  · rintro ⟨rest, h⟩
    obtain ⟨p, hp, hname, -⟩ := refers_iff.mp h
    exact Option.bind_eq_some_iff.mpr ⟨p, hp, hname⟩

theorem target?_append {b : List Char} (hb : Breaks b) (cs : List Char) :
    target? (cs ++ b) = target? cs := by
  rw [target?, atDollar?_append hb, target?]

/-- **Induction over a text as it is read**: character by character, and over each reference in
one step. -/
theorem text_induction {P : List Char → Prop} (nil : P [])
    (plain : ∀ c cs, c ≠ '$' → P cs → P (c :: cs))
    (stray : ∀ cs, target? cs = none → P cs → P ('$' :: cs))
    (reference : ∀ name cs rest, Refers name cs rest → P rest → P ('$' :: cs))
    (text : List Char) : P text := by
  induction h : text.length using Nat.strongRecOn generalizing text with
  | ind n ih =>
    subst h
    cases text with
    | nil => exact nil
    | cons c cs =>
      by_cases hc : c = '$'
      · subst hc
        cases ht : target? cs with
        | none => exact stray cs ht (ih cs.length (by simp) cs rfl)
        | some name =>
          obtain ⟨rest, hr⟩ := target?_eq_some_iff.mp ht
          obtain ⟨p, hp, -⟩ := hr.split
          refine reference name cs rest hr (ih rest.length ?_ rest rfl)
          rw [hp, List.length_cons, List.length_append]
          omega
      · exact plain c cs hc (ih cs.length (by simp) cs rfl)

/-! ## Filling a text in parts -/

/-- `fill` on characters. -/
def fillChars (value : String → Option String) (cs : List Char) : List Char :=
  (scan 0 cs).flatMap (Piece.fill value)

theorem toList_fill (value : String → Option String) (text : String) :
    (fill value text).toList = fillChars value text.toList := by
  simp [fill, fillChars]

theorem fillChars_append {b : List Char} (hb : Breaks b) (value : String → Option String)
    (a : List Char) : fillChars value (a ++ b) = fillChars value a ++ fillChars value b := by
  rw [fillChars, scan_append hb, List.flatMap_append]
  rfl

theorem fillChars_of_not_mem {cs : List Char} (h : '$' ∉ cs) (value : String → Option String) :
    fillChars value cs = cs := by
  rw [fillChars, scan_of_not_mem h]
  induction cs with
  | nil => rfl
  | cons c cs ih =>
    rw [List.mem_cons, not_or] at h
    simpa [Piece.fill, Piece.name?, Piece.source] using ih h.2

/-- Without values nothing changes. -/
theorem fillChars_none (cs : List Char) : fillChars (fun _ => none) cs = cs := by
  have hfill : Piece.fill (fun _ => none) = Piece.source := by
    funext p
    simp [Piece.fill]
  rw [fillChars, hfill, flatMap_source_scan]

@[simp] theorem fillChars_nil (value : String → Option String) : fillChars value [] = [] := rfl

theorem fillChars_cons {c : Char} (hc : c ≠ '$') (value : String → Option String)
    (cs : List Char) : fillChars value (c :: cs) = c :: fillChars value cs := by
  rw [fillChars, scan_cons hc]
  rfl

/-- What stands before the first `$` is kept, whatever follows it. -/
theorem fillChars_append_of_not_mem {a : List Char} (h : '$' ∉ a)
    (value : String → Option String) (b : List Char) :
    fillChars value (a ++ b) = a ++ fillChars value b := by
  induction a with
  | nil => rfl
  | cons c a ih =>
    rw [List.mem_cons, not_or] at h
    rw [List.cons_append, fillChars_cons (Ne.symm h.1), ih h.2]
    rfl

theorem Refers.not_mem {name : String} {cs rest : List Char} (h : Refers name cs rest) :
    ∃ p, cs = p ++ rest ∧ '$' ∉ p := by
  obtain ⟨p, hp, hb⟩ := h.split
  refine ⟨p, hp, fun hmem => ?_⟩
  exact absurd (hb '$' hmem) (by decide)

theorem fillChars_of_atDollar? {cs rest : List Char} {p : Piece} (hp : atDollar? cs = some p)
    (hsource : '$' :: cs = p.source ++ rest) (value : String → Option String) :
    fillChars value ('$' :: cs) = p.fill value ++ fillChars value rest := by
  rw [fillChars, scan_of_atDollar? hp hsource, List.flatMap_cons]
  rfl

/-- A reference to a name with a value becomes the value. -/
theorem fillChars_of_refers {value : String → Option String} {name text : String}
    {cs rest : List Char} (h : Refers name cs rest) (hv : value name = some text) :
    fillChars value ('$' :: cs) = text.toList ++ fillChars value rest := by
  obtain ⟨p, hp, hname, hsource⟩ := refers_iff.mp h
  rw [fillChars_of_atDollar? hp hsource]
  simp [Piece.fill, hname, hv]

theorem target?_ne_none {cs : List Char} {p : Piece} (h : atDollar? cs = some p) :
    target? cs ≠ none := by
  have hname : p.name? ≠ none := by
    cases cs with
    | nil => exact absurd h (by simp [atDollar?])
    | cons c cs =>
      simp only [atDollar?] at h
      split at h
      · split at h
        · obtain rfl := Option.some.inj h
          simp [Piece.name?]
        · exact absurd h (by simp)
      · split at h
        · obtain rfl := Option.some.inj h
          simp [Piece.name?]
        · exact absurd h (by simp)
  simpa [target?, h] using hname

/-- Everything else behind a `$` is kept. -/
theorem fillChars_of_none {value : String → Option String} {cs : List Char}
    (h : ∀ name, target? cs = some name → value name = none) :
    fillChars value ('$' :: cs) = '$' :: fillChars value cs := by
  cases ht : target? cs with
  | none =>
    cases hd : atDollar? cs with
    | none =>
      rw [fillChars, scan_dollar_none hd]
      rfl
    | some p => exact absurd ht (target?_ne_none hd)
  | some name =>
    -- a reference without a value: its own text holds no second `$`, so it is kept in full
    obtain ⟨rest, hr⟩ := target?_eq_some_iff.mp ht
    obtain ⟨p, hp, hname, hsource⟩ := refers_iff.mp hr
    obtain ⟨q, rfl, hq⟩ := hr.not_mem
    have hfill : p.fill value = '$' :: q := by
      have hkept : p.fill value = p.source := by simp [Piece.fill, hname, h name ht]
      have hwhole : ('$' :: q) ++ rest = p.source ++ rest := hsource
      rw [hkept]
      exact (List.append_cancel_right hwhole).symm
    rw [fillChars_of_atDollar? hp hsource, hfill, fillChars_append_of_not_mem hq]
    rfl

theorem fillChars_of_stray {cs : List Char} (h : target? cs = none)
    (value : String → Option String) : fillChars value ('$' :: cs) = '$' :: fillChars value cs := by
  refine fillChars_of_none fun name hname => ?_
  rw [h] at hname
  exact absurd hname (by simp)

/-- Binding a name leaves a text without `$` as it is. -/
theorem bind_of_not_mem {text : String} (h : '$' ∉ text.toList) (name value : String) :
    bind name value text = text := by
  apply String.toList_injective
  rw [bind, toList_fill, fillChars_of_not_mem h]

end Mlog.Reference
