import Mlog.Proofs.Reference.Scan

/-!
# One value after the other, or all at once

Names may get their values all at once, each read off the text as it was written, or one after the
other, each read off a text that holds the values put in before.  The two differ where a value
comes to stand right behind a `$` that was not followed by enough to tell what it refers to: in
`$i$j` the value of `j` lengthens the name in `$i`, and in `$$j` it becomes a name.

`separated` rules this out.  `opens name w` holds when the text `w` behind a `$` may be the
beginning of a reference to `name` that is only decided by what follows; a text is separated if no
such beginning stands right before a reference to a name that gets its value earlier.
`replay_eq_bindAll` says that this is enough.
-/
set_option autoImplicit false

namespace Mlog.Reference

/-! ## Beginnings of references -/

/-- Whether `w` may be the beginning of a reference that text behind it completes or spoils. -/
def opens (name : String) (w : List Char) : Bool :=
  (isBareName name && w.isPrefixOf name.toList) ||
    (isDelimitedName name && w.isPrefixOf ('(' :: name.toList))

theorem opens_iff {name : String} {w : List Char} :
    opens name w = true ↔ (isBareName name = true ∧ w <+: name.toList) ∨
      (isDelimitedName name = true ∧ w <+: '(' :: name.toList) := by
  simp [opens]

/-- A reference stays one when text is put behind it, unless it is a bare name to its end. -/
theorem Refers.append_of_ne {name : String} {w r : List Char} (h : Refers name w r)
    (hne : ¬ (isBareName name = true ∧ w = name.toList)) (x : List Char) :
    Refers name (w ++ x) (r ++ x) := by
  rcases h with ⟨hbare, rfl, hend⟩ | ⟨hdel, rfl⟩
  · refine Or.inl ⟨hbare, List.append_assoc .., fun c hc => ?_⟩
    cases r with
    | nil => exact absurd ⟨hbare, List.append_nil _⟩ hne
    | cons d r => exact hend c (by simpa using hc)
  · exact Or.inr ⟨hdel, by simp⟩

/-- What does not open a reference decides it: text behind it makes no difference. -/
theorem refers_append_iff_of_not_opens {name : String} {w : List Char}
    (h : opens name w = false) (x r : List Char) :
    Refers name (w ++ x) r ↔ ∃ r₀, Refers name w r₀ ∧ r = r₀ ++ x := by
  have hnot : ¬ ((isBareName name = true ∧ w <+: name.toList) ∨
      (isDelimitedName name = true ∧ w <+: '(' :: name.toList)) := by
    rw [← opens_iff, h]
    simp
  rw [not_or] at hnot
  constructor
  · -- `w` is no beginning of the reference, so the reference ends inside it
    rintro (⟨hbare, heq, hend⟩ | ⟨hdel, heq⟩)
    · rcases List.append_eq_append_iff.mp heq with ⟨a, ha, -⟩ | ⟨s, hs, hr⟩
      · exact absurd ⟨hbare, a, ha.symm⟩ hnot.1
      · refine ⟨s, Or.inl ⟨hbare, hs, fun c hc => hend c ?_⟩, hr⟩
        rw [hr, List.head?_append, hc]
        rfl
    · have heq' : w ++ x = ('(' :: name.toList) ++ (')' :: r) := heq
      rcases List.append_eq_append_iff.mp heq' with ⟨a, ha, -⟩ | ⟨s, hs, hr⟩
      · exact absurd ⟨hdel, a, ha.symm⟩ hnot.2
      · cases s with
        | nil => exact absurd ⟨hdel, [], hs ▸ by simp⟩ hnot.2
        | cons c s =>
          obtain ⟨rfl, rfl⟩ := List.cons.inj hr
          exact ⟨s, Or.inr ⟨hdel, by simpa using hs⟩, rfl⟩
  · rintro ⟨r₀, hr₀, rfl⟩
    refine hr₀.append_of_ne (fun hw => ?_) x
    exact hnot.1 ⟨hw.1, hw.2 ▸ List.prefix_refl _⟩

theorem refers_append_iff_of_breaks {name : String} {b : List Char} (hb : Breaks b)
    (w r : List Char) : Refers name (w ++ b) r ↔ ∃ r₀, Refers name w r₀ ∧ r = r₀ ++ b := by
  constructor
  · intro h
    have ht : target? w = some name := by
      rw [← target?_append hb]
      exact target?_eq_some_iff.mpr ⟨r, h⟩
    obtain ⟨r₀, hr₀⟩ := target?_eq_some_iff.mp ht
    exact ⟨r₀, hr₀, (h.unique (hr₀.append hb)).2⟩
  · rintro ⟨r₀, hr₀, rfl⟩
    exact hr₀.append hb

/-! ## Texts whose references are apart -/

/-- The texts behind each `$` of a text. -/
def behindDollars : List Char → List (List Char)
  | [] => []
  | c :: cs => if c = '$' then cs :: behindDollars cs else behindDollars cs

/-- Whether the text behind a `$` refers to one of the names. -/
def refersToAny (names : List String) (cs : List Char) : Bool := (target? cs).any names.contains

/-- Whether the text behind a `$` opens a reference to `outer` and goes on with the value of a name
of `inner`. -/
def exposed (outer : String) (inner : List String) (cs : List Char) : Bool :=
  !refersToAny inner cs && opens outer (cs.takeWhile (· != '$')) &&
    match cs.dropWhile (· != '$') with
    | [] => false
    | _ :: next => refersToAny inner next

/-- Whether no reference hangs on a value that is put in before it.  The names are in the opposite
order: the last gets its value first. -/
def separated : List String → List Char → Bool
  | [], _ => true
  | outer :: inner, text =>
    (behindDollars text).all (!exposed outer inner ·) && separated inner text

theorem refersToAny_iff {names : List String} {cs : List Char} :
    refersToAny names cs = true ↔ ∃ name ∈ names, target? cs = some name := by
  unfold refersToAny
  cases target? cs with
  | none => simp
  | some name => simp

theorem behindDollars_cons {c : Char} (hc : c ≠ '$') (cs : List Char) :
    behindDollars (c :: cs) = behindDollars cs := by
  simp [behindDollars, hc]

theorem behindDollars_dollar (cs : List Char) :
    behindDollars ('$' :: cs) = cs :: behindDollars cs := by
  simp [behindDollars]

theorem behindDollars_append {a : List Char} (h : '$' ∉ a) (b : List Char) :
    behindDollars (a ++ b) = behindDollars b := by
  induction a with
  | nil => rfl
  | cons c a ih =>
    rw [List.mem_cons, not_or] at h
    rw [List.cons_append, behindDollars_cons (Ne.symm h.1), ih h.2]

theorem exposed_iff {outer : String} {inner : List String} {cs : List Char} :
    exposed outer inner cs = true ↔ refersToAny inner cs = false ∧
      ∃ w next, cs = w ++ '$' :: next ∧ '$' ∉ w ∧ opens outer w = true ∧
        refersToAny inner next = true := by
  have hsplit : ∀ w next : List Char, '$' ∉ w →
      (w ++ '$' :: next).takeWhile (· != '$') = w ∧
        (w ++ '$' :: next).dropWhile (· != '$') = '$' :: next := by
    intro w next hw
    refine takeWhile_append_stop (fun c hc => ?_) fun c hc => ?_
    · simp only [bne_iff_ne, ne_eq]
      rintro rfl
      exact hw hc
    · obtain rfl : '$' = c := by simpa using hc
      simp
  by_cases hmem : '$' ∈ cs
  · obtain ⟨w, next, rfl, hw⟩ := List.eq_append_cons_of_mem hmem
    obtain ⟨htake, hdrop⟩ := hsplit w next hw
    simp only [exposed, htake, hdrop, Bool.and_eq_true, Bool.not_eq_true', and_assoc]
    refine and_congr_right fun _ => ?_
    constructor
    · exact fun h => ⟨w, next, rfl, hw, h⟩
    · rintro ⟨w', next', heq, hw', h⟩
      obtain ⟨htake', hdrop'⟩ := hsplit w' next' hw'
      rw [← heq] at htake' hdrop'
      obtain rfl : w = w' := htake.symm.trans htake'
      obtain ⟨-, rfl⟩ := List.cons.inj (hdrop.symm.trans hdrop')
      exact h
  · have hall : ∀ c ∈ cs, (c != '$') = true := by
      intro c hc
      simp only [bne_iff_ne, ne_eq]
      rintro rfl
      exact hmem hc
    have hdrop : cs.dropWhile (· != '$') = [] := by
      simpa using (takeWhile_append_stop (b := []) hall (by simp)).2
    refine iff_of_false (by simp [exposed, hdrop]) ?_
    rintro ⟨-, w, next, rfl, -⟩
    exact hmem (by simp)

/-! ## Putting in one more value -/

/-- The values of exactly the names of a list, none of which brings in a `$`. -/
structure Values (names : List String) (value : String → Option String) : Prop where
  isSome_iff : ∀ n, (value n).isSome = true ↔ n ∈ names
  plain : ∀ n text, value n = some text → '$' ∉ text.toList

namespace Values

variable {inner : List String} {value : String → Option String}

theorem eq_none (h : Values inner value) {n : String} (hn : n ∉ inner) : value n = none := by
  cases hv : value n with
  | none => rfl
  | some text => exact absurd ((h.isSome_iff n).mp (by simp [hv])) hn

theorem exists_of_mem (h : Values inner value) {n : String} (hn : n ∈ inner) :
    ∃ text, value n = some text := Option.isSome_iff_exists.mp ((h.isSome_iff n).mpr hn)

theorem none_of_not_refersToAny (h : Values inner value) {cs : List Char}
    (hcs : refersToAny inner cs = false) (name : String) (ht : target? cs = some name) :
    value name = none := by
  refine h.eq_none fun hmem => ?_
  rw [refersToAny_iff.mpr ⟨name, hmem, ht⟩] at hcs
  exact absurd hcs (by simp)

/-- Behind a `$` that is not exposed, what refers to `outer` is not changed by the values of
`inner`. -/
theorem refers_fillChars_iff (h : Values inner value) {outer : String} {cs : List Char}
    (hcs : refersToAny inner cs = false) (hsafe : exposed outer inner cs = false)
    (r : List Char) :
    Refers outer (fillChars value cs) r ↔
      ∃ rest, Refers outer cs rest ∧ r = fillChars value rest := by
  by_cases hmem : '$' ∈ cs
  · obtain ⟨w, next, rfl, hw⟩ := List.eq_append_cons_of_mem hmem
    have hrest : ∀ r₀, Refers outer w r₀ → '$' ∉ r₀ := by
      rintro r₀ hr₀ hin
      obtain ⟨p, rfl, -⟩ := hr₀.split
      exact hw (List.mem_append_right p hin)
    -- behind `w` comes another `$`, or a value that `w` does not open a reference for
    have hfilled : ∀ r, Refers outer (w ++ fillChars value ('$' :: next)) r ↔
        ∃ r₀, Refers outer w r₀ ∧ r = r₀ ++ fillChars value ('$' :: next) := by
      intro r
      cases hn : refersToAny inner next with
      | true =>
        have hclosed : opens outer w = false := by
          cases ho : opens outer w with
          | false => rfl
          | true =>
            rw [exposed_iff.mpr ⟨hcs, w, next, rfl, hw, ho, hn⟩] at hsafe
            exact absurd hsafe (by simp)
        exact refers_append_iff_of_not_opens hclosed _ r
      | false =>
        rw [fillChars_of_none (h.none_of_not_refersToAny hn)]
        exact refers_append_iff_of_breaks (breaks_dollar _) w r
    rw [fillChars_append_of_not_mem hw, hfilled]
    constructor
    · rintro ⟨r₀, hr₀, rfl⟩
      refine ⟨r₀ ++ '$' :: next, hr₀.append (breaks_dollar next), ?_⟩
      rw [fillChars_append_of_not_mem (hrest r₀ hr₀)]
    · rintro ⟨rest, hr, rfl⟩
      obtain ⟨r₀, hr₀, rfl⟩ := (refers_append_iff_of_breaks (breaks_dollar next) w rest).mp hr
      exact ⟨r₀, hr₀, fillChars_append_of_not_mem (hrest r₀ hr₀) value _⟩
  · rw [fillChars_of_not_mem hmem]
    have hkept : ∀ rest, Refers outer cs rest → fillChars value rest = rest := by
      rintro rest hr
      obtain ⟨p, rfl, -⟩ := hr.split
      exact fillChars_of_not_mem (fun hin => hmem (List.mem_append_right p hin)) value
    constructor
    · exact fun hr => ⟨r, hr, (hkept r hr).symm⟩
    · rintro ⟨rest, hr, rfl⟩
      rw [hkept rest hr]
      exact hr

/-- What does not refer to `outer` there does not come to do so, and is kept when `outer` gets its
value. -/
theorem fillChars_dollar_of_ne (h : Values inner value) {outer text : String} {cs : List Char}
    (hcs : refersToAny inner cs = false) (hsafe : exposed outer inner cs = false)
    (hne : target? cs ≠ some outer) :
    fillChars (fun n => if n = outer then some text else none) ('$' :: fillChars value cs) =
      '$' :: fillChars (fun n => if n = outer then some text else none) (fillChars value cs) := by
  refine fillChars_of_none fun n hn => if_neg ?_
  rintro rfl
  obtain ⟨r, hr⟩ := target?_eq_some_iff.mp hn
  obtain ⟨rest, hrest, -⟩ := (h.refers_fillChars_iff hcs hsafe r).mp hr
  exact hne (target?_eq_some_iff.mpr ⟨rest, hrest⟩)

/-- **One more value may be put in afterwards** if no reference to its name is exposed. -/
theorem fillChars_fillChars (h : Values inner value) {outer text : String}
    (houter : outer ∉ inner) {value' : String → Option String}
    (hvalue' : ∀ n, value' n = if n = outer then some text else value n) (cs : List Char)
    (hsafe : ∀ ds ∈ behindDollars cs, exposed outer inner ds = false) :
    fillChars (fun n => if n = outer then some text else none) (fillChars value cs) =
      fillChars value' cs := by
  induction cs using text_induction with
  | nil => rfl
  | plain c cs hc ih =>
    rw [behindDollars_cons hc] at hsafe
    rw [fillChars_cons hc, fillChars_cons hc, fillChars_cons hc, ih hsafe]
  | stray cs ht ih =>
    rw [behindDollars_dollar, List.forall_mem_cons] at hsafe
    have hcs : refersToAny inner cs = false := by simp [refersToAny, ht]
    rw [fillChars_of_stray ht, h.fillChars_dollar_of_ne hcs hsafe.1 (by simp [ht]), ih hsafe.2,
      fillChars_of_stray ht]
  | reference name cs rest hr ih =>
    have ht : target? cs = some name := target?_eq_some_iff.mpr ⟨rest, hr⟩
    obtain ⟨p, rfl, hp⟩ := hr.not_mem
    rw [behindDollars_dollar, List.forall_mem_cons, behindDollars_append hp] at hsafe
    by_cases hin : name ∈ inner
    · -- the value stands for the reference, and holds no reference itself
      obtain ⟨e, he⟩ := h.exists_of_mem hin
      have hne : name ≠ outer := by
        rintro rfl
        exact houter hin
      have he' : value' name = some e := by rw [hvalue', if_neg hne, he]
      rw [fillChars_of_refers hr he, fillChars_append_of_not_mem (h.plain name e he), ih hsafe.2,
        fillChars_of_refers hr he']
    · have hcs : refersToAny inner (p ++ rest) = false := by
        simp [refersToAny, ht, hin]
      have hnone : fillChars value ('$' :: (p ++ rest)) = '$' :: fillChars value (p ++ rest) :=
        fillChars_of_none (h.none_of_not_refersToAny hcs)
      by_cases hname : name = outer
      · subst hname
        have hr' := (h.refers_fillChars_iff hcs hsafe.1 _).mpr ⟨rest, hr, rfl⟩
        rw [hnone, fillChars_of_refers hr' (if_pos rfl), ih hsafe.2,
          fillChars_of_refers hr (by rw [hvalue', if_pos rfl])]
      · -- a name of neither kind: its reference is plain text to both
        have hnone' : ∀ n, target? (p ++ rest) = some n → value' n = none := by
          intro n hn
          obtain rfl : name = n := Option.some.inj (ht.symm.trans hn)
          rw [hvalue', if_neg hname, h.eq_none hin]
        rw [hnone, h.fillChars_dollar_of_ne hcs hsafe.1 (by simp [ht, hname]),
          fillChars_append_of_not_mem hp, fillChars_append_of_not_mem hp, ih hsafe.2,
          fillChars_of_none hnone', fillChars_append_of_not_mem hp]

end Values

/-! ## Many values -/

/-- Puts in the values of names one after the other, the last name's first. -/
def replay (values : List (String × String)) (text : String) : String :=
  values.foldr (fun nv t => bind nv.1 nv.2 t) text

/-- Puts in the values of names all at once. -/
def bindAll (values : List (String × String)) (text : String) : String :=
  fill (fun n => values.lookup n) text

theorem lookup_cons (name value n : String) (values : List (String × String)) :
    ((name, value) :: values).lookup n = if n = name then some value else values.lookup n := by
  rw [List.lookup_cons]
  by_cases h : n = name
  · simp [h]
  · have hbeq : (n == name) = false := by simpa using h
    rw [hbeq, if_neg h]

theorem values_lookup {values : List (String × String)}
    (hplain : ∀ nv ∈ values, '$' ∉ nv.2.toList) :
    Values (values.map Prod.fst) fun n => values.lookup n := by
  induction values with
  | nil => exact ⟨by simp, by simp⟩
  | cons nv values ih =>
    obtain ⟨name, value⟩ := nv
    rw [List.forall_mem_cons] at hplain
    have hrest := ih hplain.2
    refine ⟨fun n => ?_, fun n text hn => ?_⟩
    · rw [lookup_cons, List.map_cons, List.mem_cons, ← hrest.isSome_iff]
      by_cases h : n = name
      · simp [h]
      · simp [h]
    · rw [lookup_cons] at hn
      by_cases h : n = name
      · rw [if_pos h] at hn
        obtain rfl := Option.some.inj hn
        exact hplain.1
      · rw [if_neg h] at hn
        exact hrest.plain n text hn

/-- **In a separated text, one value after the other is all at once.** -/
theorem replay_eq_bindAll {values : List (String × String)} {text : String}
    (hnames : (values.map Prod.fst).Nodup) (hplain : ∀ nv ∈ values, '$' ∉ nv.2.toList)
    (hsep : separated (values.map Prod.fst) text.toList = true) :
    replay values text = bindAll values text := by
  induction values with
  | nil =>
    apply String.toList_injective
    rw [bindAll, toList_fill]
    exact (fillChars_none text.toList).symm
  | cons nv values ih =>
    obtain ⟨name, value⟩ := nv
    rw [List.map_cons, List.nodup_cons] at hnames
    rw [List.forall_mem_cons] at hplain
    simp only [List.map_cons, separated, Bool.and_eq_true, List.all_eq_true,
      Bool.not_eq_true'] at hsep
    have hrest := ih hnames.2 hplain.2 hsep.2
    apply String.toList_injective
    show (bind name value (replay values text)).toList = _
    rw [hrest, bind, toList_fill, bindAll, toList_fill, bindAll, toList_fill]
    exact (values_lookup hplain.2).fillChars_fillChars hnames.1
      (fun n => lookup_cons name value n values) _ hsep.1

end Mlog.Reference
