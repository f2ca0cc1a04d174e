import Mlog.Proofs.Reference.Simultaneous

/-!
# Where values collide

A text that is not separated has values that show it: put in one after the other they give another
text than all at once (`exists_replay_ne`), so `separated` is not only enough but needed
(`separated_iff`).

The values are chosen to be counted.  The name `outer` whose reference is exposed gets the value
`!`, and no other value holds one, so the texts differ if the number of references to `outer`
changes when the inner names get their values.  Of these only one, `inner`, matters; the others
get `,`, which ends every reference in front of it.

* If somewhere the bare name `outer` stands right before a reference to `inner`, then `inner` gets a
  word that is longer than `outer`.  It spoils that reference, and since it is too long to be part
  of a name it makes no new one.
* Otherwise nothing that refers to `outer` can be spoiled, and `inner` gets what is missing where
  the reference is exposed, which makes a new one.
-/
set_option autoImplicit false

namespace Mlog.Reference

/-! ## Counting references -/

/-- How often a text refers to a name. -/
def refCount (name : String) (cs : List Char) : Nat :=
  (behindDollars cs).countP fun ds => target? ds == some name

theorem refCount_cons {c : Char} (hc : c ≠ '$') (name : String) (cs : List Char) :
    refCount name (c :: cs) = refCount name cs := by
  rw [refCount, behindDollars_cons hc, refCount]

theorem refCount_dollar (name : String) (cs : List Char) :
    refCount name ('$' :: cs) = refCount name cs + if target? cs == some name then 1 else 0 := by
  rw [refCount, behindDollars_dollar, List.countP_cons, refCount]

theorem refCount_append {a : List Char} (h : '$' ∉ a) (name : String) (b : List Char) :
    refCount name (a ++ b) = refCount name b := by
  rw [refCount, behindDollars_append h, refCount]

/-- **Every reference to `name` adds one mark**, if its value does and no other value does. -/
theorem count_fillChars {value : String → Option String} {name : String}
    (hmark : ∀ n text, value n = some text → text.toList.count '!' = if n = name then 1 else 0)
    (cs : List Char) :
    (fillChars value cs).count '!' =
      cs.count '!' + if (value name).isSome then refCount name cs else 0 := by
  induction cs using text_induction with
  | nil => simp [refCount, behindDollars]
  | plain c cs hc ih =>
    rw [fillChars_cons hc, List.count_cons, List.count_cons, ih, refCount_cons hc]
    omega
  | stray cs ht ih =>
    rw [fillChars_of_stray ht, List.count_cons, List.count_cons, ih, refCount_dollar, ht]
    simp
  | reference n cs rest hr ih =>
    have ht : target? cs = some n := target?_eq_some_iff.mpr ⟨rest, hr⟩
    obtain ⟨p, rfl, hbreak⟩ := hr.split
    have hdollar : '$' ∉ p := fun h => absurd (hbreak '$' h) (by decide)
    have hbang : p.count '!' = 0 :=
      List.count_eq_zero.mpr fun h => absurd (hbreak '!' h) (by decide)
    -- the reference itself holds no mark, so nothing is lost when it goes
    have hplain : ('$' :: (p ++ rest)).count '!' = rest.count '!' := by
      rw [List.count_cons, List.count_append, hbang]
      simp
    rw [hplain, refCount_dollar, refCount_append hdollar, ht]
    cases hv : value n with
    | some text =>
      rw [fillChars_of_refers hr hv, List.count_append, hmark n text hv, ih]
      by_cases hn : n = name
      · subst hn
        simp only [hv, Option.isSome_some, if_true, BEq.rfl]
        omega
      · simp [hn]
    | none =>
      have hnone : ∀ m, target? (p ++ rest) = some m → value m = none := by
        intro m hm
        obtain rfl : n = m := Option.some.inj (ht.symm.trans hm)
        exact hv
      rw [fillChars_of_none hnone, fillChars_append_of_not_mem hdollar, List.count_cons,
        List.count_append, hbang, ih]
      by_cases hn : n = name
      · subst hn
        simp [hv]
      · simp [hn]

/-- The references to a name once others have their values: behind each `$` that is left, read off
the text with the values in it. -/
theorem Values.refCount_fillChars {inner : List String} {value : String → Option String}
    (h : Values inner value) (name : String) (cs : List Char) :
    refCount name (fillChars value cs) = (behindDollars cs).countP fun ds =>
      !refersToAny inner ds && target? (fillChars value ds) == some name := by
  induction cs using text_induction with
  | nil => rfl
  | plain c cs hc ih =>
    rw [fillChars_cons hc, refCount_cons hc, behindDollars_cons hc, ih]
  | stray cs ht ih =>
    have hcs : refersToAny inner cs = false := by simp [refersToAny, ht]
    rw [fillChars_of_stray ht, refCount_dollar, ih, behindDollars_dollar, List.countP_cons, hcs]
    simp
  | reference n cs rest hr ih =>
    have ht : target? cs = some n := target?_eq_some_iff.mpr ⟨rest, hr⟩
    obtain ⟨p, rfl, hp⟩ := hr.not_mem
    rw [behindDollars_dollar, List.countP_cons, behindDollars_append hp, ← ih]
    by_cases hin : n ∈ inner
    · obtain ⟨text, hv⟩ := h.exists_of_mem hin
      have hcs : refersToAny inner (p ++ rest) = true := refersToAny_iff.mpr ⟨n, hin, ht⟩
      rw [fillChars_of_refers hr hv, refCount_append (h.plain n text hv), hcs]
      simp
    · have hcs : refersToAny inner (p ++ rest) = false := by simp [refersToAny, ht, hin]
      rw [fillChars_of_none (h.none_of_not_refersToAny hcs), refCount_dollar, hcs,
        fillChars_append_of_not_mem hp, refCount_append hp]
      simp

/-! ## Values that spoil or make a reference -/

theorem countP_lt_of_imp {α : Type} {p q : α → Bool} {xs : List α} {a : α}
    (h : ∀ x ∈ xs, p x = true → q x = true) (ha : a ∈ xs) (hq : q a = true)
    (hp : p a = false) : xs.countP p < xs.countP q := by
  induction xs with
  | nil => exact absurd ha (by simp)
  | cons x xs ih =>
    rw [List.forall_mem_cons] at h
    rw [List.countP_cons, List.countP_cons]
    rcases List.mem_cons.mp ha with rfl | ha
    · have hle := List.countP_mono_left h.2
      simp only [hp, hq, if_true]
      simp
      omega
    · have hlt := ih h.2 ha
      cases hx : p x with
      | true => simpa [h.1 hx] using hlt
      | false =>
        cases q x with
        | true => simp; omega
        | false => simpa using hlt

/-- Where a text `w` is followed by a long text `x`, a shorter beginning ends in `x`, or before the
end of `w`. -/
theorem split_of_append_long {head w x s r : List Char} (heq : w ++ (x ++ s) = head ++ r)
    (hlong : head.length < x.length) :
    (∃ c ∈ x, r.head? = some c) ∨ ∃ c t, w = head ++ c :: t ∧ r = c :: (t ++ (x ++ s)) := by
  have hne : x ≠ [] := by
    rintro rfl
    exact absurd hlong (by simp)
  rcases List.append_eq_append_iff.mp heq with ⟨a, ha, hxs⟩ | ⟨t, ht, hr⟩
  · have hlen := congrArg List.length ha
    rw [List.length_append] at hlen
    rcases List.append_eq_append_iff.mp hxs with ⟨b, hb, -⟩ | ⟨t, ht, hr⟩
    · have hlen' := congrArg List.length hb
      rw [List.length_append] at hlen'
      omega
    · cases t with
      | nil =>
        have hlen' := congrArg List.length ht
        rw [List.append_nil] at hlen'
        omega
      | cons c t => exact Or.inl ⟨c, by simp [ht], by simp [hr]⟩
  · cases t with
    | nil =>
      obtain ⟨c, x, rfl⟩ := List.exists_cons_of_ne_nil hne
      exact Or.inl ⟨c, List.mem_cons_self, by simp [hr]⟩
    | cons c t => exact Or.inr ⟨c, t, ht, hr⟩

/-- A word longer than a name and its delimiter is part of no reference to the name: what refers to
it in spite of the word did so before. -/
theorem refers_of_refers_long {name : String} {w x s r : List Char}
    (h : Refers name (w ++ (x ++ s)) r) (hword : ∀ c ∈ x, Text.isWord c = true)
    (hlong : name.toList.length + 1 < x.length) :
    w ≠ name.toList ∧ ∃ r₀, Refers name w r₀ := by
  rcases h with ⟨hbare, heq, hend⟩ | ⟨hdel, heq⟩
  · rcases split_of_append_long heq (by omega) with ⟨c, hc, hr⟩ | ⟨c, t, hw, hr⟩
    · -- the name would end inside the word, but a name takes in all of a word
      have hstop := hend c hr
      rw [hword c hc] at hstop
      exact absurd hstop (by simp)
    · refine ⟨by simp [hw], c :: t, Or.inl ⟨hbare, hw, fun d hd => hend d ?_⟩⟩
      rw [hr]
      simpa using hd
  · have heq' : w ++ (x ++ s) = ('(' :: name.toList) ++ (')' :: r) := heq
    rcases split_of_append_long heq' (by simpa using hlong) with ⟨c, hc, hr⟩ | ⟨c, t, hw, hr⟩
    · -- the closing delimiter would stand inside the word
      obtain rfl : ')' = c := by simpa using hr
      exact absurd (hword ')' hc) (by decide)
    · obtain ⟨rfl, -⟩ := List.cons.inj hr
      refine ⟨fun hname => ?_, t, Or.inr ⟨hdel, by simpa using hw⟩⟩
      have hlen := congrArg List.length (hw.symm.trans hname)
      simp only [List.length_cons, List.length_append] at hlen
      omega

/-- What opens a reference is none yet, unless it is the bare name. -/
theorem not_refers_of_opens {name : String} {w : List Char} (h : opens name w = true)
    (hne : ¬ (isBareName name = true ∧ w = name.toList)) (r : List Char) :
    ¬ Refers name w r := by
  rintro (⟨hbare, rfl, -⟩ | ⟨-, rfl⟩)
  · rcases opens_iff.mp h with ⟨-, hpre⟩ | ⟨-, y, hy⟩
    · have hlen := hpre.length_le
      rw [List.length_append] at hlen
      obtain rfl : r = [] := List.length_eq_zero_iff.mp (by omega)
      exact hne ⟨hbare, List.append_nil _⟩
    · -- a bare name does not begin with a delimiter
      obtain ⟨c, cs, hname, hc, -⟩ := isBareName_iff.mp hbare
      rw [hname] at hy
      obtain ⟨rfl, -⟩ := List.cons.inj hy
      exact absurd hc (by decide)
  · rcases opens_iff.mp h with ⟨-, hpre⟩ | ⟨-, hpre⟩
    · have hlen := hpre.length_le
      simp only [List.length_cons, List.length_append] at hlen
      omega
    · have hlen := hpre.length_le
      simp only [List.length_cons, List.length_append] at hlen
      omega

/-- There is text that makes a reference of what opens one. -/
theorem exists_completion {name : String} {w : List Char} (h : opens name w = true) :
    ∃ text : String, '$' ∉ text.toList ∧ '!' ∉ text.toList ∧
      ∀ s, ∃ r, Refers name (w ++ (text.toList ++ s)) r := by
  have hfree : ∀ {y : List Char}, (∀ d ∈ y, isBreak d = false) → '$' ∉ y ∧ '!' ∉ y := by
    intro y hy
    exact ⟨fun hin => absurd (hy '$' hin) (by decide), fun hin => absurd (hy '!' hin) (by decide)⟩
  rcases opens_iff.mp h with ⟨hbare, y, hy⟩ | ⟨hdel, y, hy⟩
  · have hyb : ∀ d ∈ y, isBreak d = false := by
      intro d hd
      have hin : d ∈ name.toList := hy ▸ List.mem_append_right w hd
      simp [isBreak, isDelimitedChar_of_isWord (isWord_of_isBareName hbare d hin)]
    obtain ⟨hdollar, hbang⟩ := hfree hyb
    refine ⟨String.ofList (y ++ [',']), by simpa using hdollar, by simpa using hbang,
      fun s => ⟨',' :: s, Or.inl ⟨hbare, by simp [← hy], fun c hc => ?_⟩⟩⟩
    obtain rfl : ',' = c := by simpa using hc
    decide
  · have hyb : ∀ d ∈ y, isBreak d = false := by
      intro d hd
      have hin : d ∈ '(' :: name.toList := hy ▸ List.mem_append_right w hd
      rcases List.mem_cons.mp hin with rfl | hin
      · decide
      · simp [isBreak, (isDelimitedName_iff.mp hdel).2 d hin]
    obtain ⟨hdollar, hbang⟩ := hfree hyb
    refine ⟨String.ofList (y ++ [')']), by simpa using hdollar, by simpa using hbang,
      fun s => ⟨s, Or.inr ⟨hdel, ?_⟩⟩⟩
    have hcons : '(' :: (name.toList ++ ')' :: s) = ('(' :: name.toList) ++ ')' :: s := rfl
    rw [hcons, ← hy]
    simp

/-! ## References that change -/

section Change

variable {outer name text : String} {inner : List String} {value : String → Option String}

/-- Every name but one has the value `,`. -/
theorem target?_fillChars_cases (h : Values inner value) (htext : value name = some text)
    (hother : ∀ n ∈ inner, n ≠ name → value n = some ",") {cs : List Char}
    (hcs : refersToAny inner cs = false) :
    target? (fillChars value cs) = target? cs ∨
      ∃ w next rest, cs = w ++ '$' :: next ∧ '$' ∉ w ∧ Refers name next rest ∧
        fillChars value cs = w ++ (text.toList ++ fillChars value rest) := by
  by_cases hmem : '$' ∈ cs
  · obtain ⟨w, next, rfl, hw⟩ := List.eq_append_cons_of_mem hmem
    rw [fillChars_append_of_not_mem hw, target?_append (breaks_dollar next)]
    cases hn : refersToAny inner next with
    | false =>
      rw [fillChars_of_none (h.none_of_not_refersToAny hn)]
      exact Or.inl (target?_append (breaks_dollar _) w)
    | true =>
      obtain ⟨n, hin, ht⟩ := refersToAny_iff.mp hn
      obtain ⟨rest, hr⟩ := target?_eq_some_iff.mp ht
      by_cases hname : n = name
      · subst hname
        exact Or.inr ⟨w, next, rest, rfl, hw, hr, by rw [fillChars_of_refers hr htext]⟩
      · -- a comma ends every reference in front of it
        rw [fillChars_of_refers hr (hother n hin hname)]
        exact Or.inl (target?_append (breaks_cons (by decide) _) w)
  · rw [fillChars_of_not_mem hmem]
    exact Or.inl rfl

/-- **A long word spoils a bare reference** right before it, and makes none. -/
theorem refCount_lt_of_bare (h : Values inner value) (htext : value name = some text)
    (hother : ∀ n ∈ inner, n ≠ name → value n = some ",")
    (hword : ∀ c ∈ text.toList, Text.isWord c = true)
    (hlong : outer.toList.length + 1 < text.toList.length) {cs next : List Char}
    (hbare : isBareName outer = true) (hin : outer.toList ++ '$' :: next ∈ behindDollars cs)
    (hnext : target? next = some name) :
    refCount outer (fillChars value cs) < refCount outer cs := by
  have hfree : '$' ∉ outer.toList := fun hd =>
    absurd (isWord_of_isBareName hbare '$' hd) (by decide)
  obtain ⟨rest, hr⟩ := target?_eq_some_iff.mp hnext
  have hself : Refers outer outer.toList [] := Or.inl ⟨hbare, by simp, by simp⟩
  rw [h.refCount_fillChars, refCount]
  refine countP_lt_of_imp (fun ds _ hds => ?_) hin ?_ ?_
  · simp only [Bool.and_eq_true, Bool.not_eq_true', beq_iff_eq] at hds ⊢
    rcases target?_fillChars_cases h htext hother hds.1 with heq | ⟨w, next', rest', rfl, -, -, heq⟩
    · rw [← heq]
      exact hds.2
    · rw [target?_append (breaks_dollar next')]
      obtain ⟨r, hr'⟩ := target?_eq_some_iff.mp hds.2
      rw [heq] at hr'
      exact target?_eq_some_iff.mpr (refers_of_refers_long hr' hword hlong).2
  · simp only [beq_iff_eq]
    rw [target?_append (breaks_dollar next)]
    exact target?_eq_some_iff.mpr ⟨[], hself⟩
  · simp only [Bool.and_eq_false_iff, beq_eq_false_iff_ne, ne_eq]
    refine Or.inr fun ht => ?_
    obtain ⟨r, hr'⟩ := target?_eq_some_iff.mp ht
    rw [fillChars_append_of_not_mem hfree, fillChars_of_refers hr htext] at hr'
    exact (refers_of_refers_long hr' hword hlong).1 rfl

/-- **A completion makes a reference** where one is opened, and spoils none if no bare reference
stands right before it. -/
theorem refCount_lt_of_opens (h : Values inner value) (houter : outer ∉ inner)
    (htext : value name = some text) (hother : ∀ n ∈ inner, n ≠ name → value n = some ",")
    {cs w next : List Char} (hin : w ++ '$' :: next ∈ behindDollars cs) (hw : '$' ∉ w)
    (hopens : opens outer w = true) (hrefers : refersToAny inner (w ++ '$' :: next) = false)
    (hnext : target? next = some name)
    (hcomplete : ∀ s, ∃ r, Refers outer (w ++ (text.toList ++ s)) r)
    (hnone : isBareName outer = true → ∀ next', outer.toList ++ '$' :: next' ∈ behindDollars cs →
      target? next' ≠ some name) :
    refCount outer cs < refCount outer (fillChars value cs) := by
  obtain ⟨rest, hr⟩ := target?_eq_some_iff.mp hnext
  rw [h.refCount_fillChars, refCount]
  refine countP_lt_of_imp (fun ds hds ht => ?_) hin ?_ ?_
  · have ht' : target? ds = some outer := by simpa using ht
    have hcs : refersToAny inner ds = false := by simp [refersToAny, ht', houter]
    simp only [hcs, Bool.not_false, Bool.true_and, beq_iff_eq]
    rcases target?_fillChars_cases h htext hother hcs with
      heq | ⟨w', next', rest', rfl, -, hr', heq⟩
    · rw [heq, ht']
    · rw [target?_append (breaks_dollar next')] at ht'
      obtain ⟨r, href⟩ := target?_eq_some_iff.mp ht'
      rw [heq]
      refine target?_eq_some_iff.mpr ⟨_, href.append_of_ne (fun hbad => ?_) _⟩
      refine hnone hbad.1 next' (hbad.2 ▸ hds) ?_
      exact target?_eq_some_iff.mpr ⟨rest', hr'⟩
  · simp only [hrefers, Bool.not_false, Bool.true_and, beq_iff_eq]
    rw [fillChars_append_of_not_mem hw, fillChars_of_refers hr htext]
    exact target?_eq_some_iff.mpr (hcomplete _)
  · rw [target?_append (breaks_dollar next)]
    simp only [beq_eq_false_iff_ne, ne_eq]
    intro ht
    obtain ⟨r, href⟩ := target?_eq_some_iff.mp ht
    refine not_refers_of_opens hopens (fun hbad => ?_) r href
    exact hnone hbad.1 next (hbad.2 ▸ hin) hnext

end Change

/-! ## Values that tell the texts apart -/

/-- The values that a function gives to names. -/
def assign (names : List String) (f : String → String) : List (String × String) :=
  names.map fun n => (n, f n)

theorem map_fst_assign (names : List String) (f : String → String) :
    (assign names f).map Prod.fst = names := by
  simp [assign, Function.comp_def]

theorem lookup_assign {names : List String} {n : String} (h : n ∈ names) (f : String → String) :
    (assign names f).lookup n = some (f n) := by
  induction names with
  | nil => exact absurd h (by simp)
  | cons m names ih =>
    rw [assign, List.map_cons, lookup_cons]
    by_cases hn : n = m
    · rw [if_pos hn, hn]
    · rw [if_neg hn]
      exact ih ((List.mem_cons.mp h).resolve_left hn)

section Assign

variable {name : String} {names : List String} {f : String → String}

theorem plain_assign (hplain : ∀ n, '$' ∉ (f n).toList) :
    ∀ nv ∈ assign names f, '$' ∉ nv.2.toList := by
  intro nv hnv
  obtain ⟨n, -, rfl⟩ := List.mem_map.mp hnv
  exact hplain n

theorem values_assign (hplain : ∀ n, '$' ∉ (f n).toList) :
    Values names fun n => (assign names f).lookup n := by
  have hvalues := values_lookup (@plain_assign names f hplain)
  rwa [map_fst_assign] at hvalues

variable (hmark : ∀ n, (f n).toList.count '!' = if n = name then 1 else 0)

include hmark

/-- Binding one name marks its references. -/
theorem count_bind (m : String) (text : String) :
    (bind m (f m) text).toList.count '!' =
      text.toList.count '!' + if m = name then refCount name text.toList else 0 := by
  have hmark' : ∀ n t, (if n = m then some (f m) else none) = some t →
      t.toList.count '!' = if n = name then 1 else 0 := by
    intro n t hn
    by_cases h : n = m
    · rw [if_pos h] at hn
      obtain rfl := Option.some.inj hn
      rw [h]
      exact hmark m
    · rw [if_neg h] at hn
      exact absurd hn (by simp)
  rw [bind, toList_fill, count_fillChars hmark']
  by_cases h : m = name
  · simp [h]
  · simp [h, Ne.symm h]

theorem count_replay (hname : name ∉ names) (text : String) :
    (replay (assign names f) text).toList.count '!' = text.toList.count '!' := by
  induction names with
  | nil => rfl
  | cons m names ih =>
    rw [List.mem_cons, not_or] at hname
    show (bind m (f m) (replay (assign names f) text)).toList.count '!' = _
    rw [count_bind hmark, if_neg (Ne.symm hname.1), ih hname.2]
    rfl

theorem count_bindAll (hplain : ∀ n, '$' ∉ (f n).toList) (text : String) :
    (bindAll (assign names f) text).toList.count '!' =
      text.toList.count '!' + if name ∈ names then refCount name text.toList else 0 := by
  have hvalues : Values names fun n => (assign names f).lookup n := values_assign hplain
  have hmark' : ∀ n t, (assign names f).lookup n = some t →
      t.toList.count '!' = if n = name then 1 else 0 := by
    intro n t hn
    have hin : n ∈ names := (hvalues.isSome_iff n).mp (by simp [hn])
    rw [lookup_assign hin] at hn
    obtain rfl := Option.some.inj hn
    exact hmark n
  rw [bindAll, toList_fill, count_fillChars hmark']
  simp only [hvalues.isSome_iff]

end Assign

/-- If the number of references to a name changes when the names inside it get their values, marks
in their place show it. -/
theorem replay_ne_of_refCount_ne {outside inner : List String} {outer : String}
    {f : String → String} {text : String} (hnames : (outside ++ outer :: inner).Nodup)
    (hplain : ∀ n, '$' ∉ (f n).toList)
    (hmark : ∀ n, (f n).toList.count '!' = if n = outer then 1 else 0)
    (hsep : separated inner text.toList = true)
    (hcount : refCount outer (fillChars (fun n => (assign inner f).lookup n) text.toList) ≠
      refCount outer text.toList) :
    replay (assign (outside ++ outer :: inner) f) text ≠
      bindAll (assign (outside ++ outer :: inner) f) text := by
  intro heq
  obtain ⟨-, hrest, hdisjoint⟩ := List.nodup_append.mp hnames
  rw [List.nodup_cons] at hrest
  have houtside : outer ∉ outside := fun h => hdisjoint outer h outer List.mem_cons_self rfl
  have hinner : replay (assign inner f) text = bindAll (assign inner f) text :=
    replay_eq_bindAll (by rw [map_fst_assign]; exact hrest.2) (plain_assign hplain)
      (by rw [map_fst_assign]; exact hsep)
  -- the names outside are bound last and put in no mark
  have hsplit : replay (assign (outside ++ outer :: inner) f) text =
      replay (assign outside f) (bind outer (f outer) (replay (assign inner f) text)) := by
    simp [replay, assign]
  have hmarks := congrArg (fun t : String => t.toList.count '!') heq
  rw [hsplit, count_replay hmark houtside, count_bind hmark, if_pos rfl, hinner,
    count_bindAll hmark hplain, count_bindAll hmark hplain, if_neg hrest.1,
    if_pos (by simp)] at hmarks
  refine hcount ?_
  rw [← toList_fill]
  have hfill : fill (fun n => (assign inner f).lookup n) text = bindAll (assign inner f) text := rfl
  rw [hfill]
  omega

/-- The innermost name with an exposed reference. -/
theorem exists_exposed {names : List String} {text : List Char}
    (h : separated names text = false) :
    ∃ outside outer inner, names = outside ++ outer :: inner ∧ separated inner text = true ∧
      ∃ cs ∈ behindDollars text, exposed outer inner cs = true := by
  induction names with
  | nil => exact absurd h (by simp [separated])
  | cons outer inner ih =>
    cases hi : separated inner text with
    | false =>
      obtain ⟨outside, outer', inner', rfl, hsep, hex⟩ := ih hi
      exact ⟨outer :: outside, outer', inner', rfl, hsep, hex⟩
    | true =>
      have hall : (behindDollars text).all (!exposed outer inner ·) = false := by
        simpa [separated, hi] using h
      obtain ⟨cs, hcs, hexposed⟩ := List.all_eq_false.mp hall
      exact ⟨[], outer, inner, rfl, hi, cs, hcs, by simpa using hexposed⟩

/-- `!` for the name whose references are counted, a given text for one more, `,` for the others. -/
def marking (outer name value n : String) : String :=
  if n = outer then "!" else if n = name then value else ","

section Marking

variable {outer name value : String}

theorem plain_marking (hdollar : '$' ∉ value.toList) (n : String) :
    '$' ∉ (marking outer name value n).toList := by
  unfold marking
  split
  · decide
  · split
    · exact hdollar
    · decide

theorem count_marking (hbang : '!' ∉ value.toList) (n : String) :
    (marking outer name value n).toList.count '!' = if n = outer then 1 else 0 := by
  unfold marking
  split
  · decide
  · split
    · exact List.count_eq_zero.mpr hbang
    · decide

theorem replay_marking_ne {outside inner : List String} {text : String}
    (hnames : (outside ++ outer :: inner).Nodup) (hname : name ∈ inner)
    (hdollar : '$' ∉ value.toList) (hbang : '!' ∉ value.toList)
    (hsep : separated inner text.toList = true)
    (hchange : ∀ σ : String → Option String, Values inner σ → σ name = some value →
      (∀ n ∈ inner, n ≠ name → σ n = some ",") →
        refCount outer (fillChars σ text.toList) ≠ refCount outer text.toList) :
    replay (assign (outside ++ outer :: inner) (marking outer name value)) text ≠
      bindAll (assign (outside ++ outer :: inner) (marking outer name value)) text := by
  obtain ⟨-, hrest, -⟩ := List.nodup_append.mp hnames
  have hne : ∀ n ∈ inner, n ≠ outer := by
    rintro n hn rfl
    exact (List.nodup_cons.mp hrest).1 hn
  refine replay_ne_of_refCount_ne hnames (plain_marking hdollar) (count_marking hbang) hsep ?_
  refine hchange _ (values_assign (plain_marking hdollar)) ?_ fun n hn hnn => ?_
  · rw [lookup_assign hname, marking, if_neg (hne name hname), if_pos rfl]
  · rw [lookup_assign hn, marking, if_neg (hne n hn), if_neg hnn]

end Marking

/-- **Values collide in every text that is not separated.** -/
theorem exists_replay_ne {names : List String} (hnames : names.Nodup) {text : String}
    (h : separated names text.toList = false) :
    ∃ f : String → String, (∀ n, '$' ∉ (f n).toList) ∧
      replay (assign names f) text ≠ bindAll (assign names f) text := by
  obtain ⟨outside, outer, inner, rfl, hsep, cs, hcs, hexposed⟩ := exists_exposed h
  obtain ⟨hrefers, w, next, rfl, hw, hopens, hnext⟩ := exposed_iff.mp hexposed
  obtain ⟨name, hname, htarget⟩ := refersToAny_iff.mp hnext
  -- a bare name to spoil, or a beginning to complete
  by_cases hbad : ∃ next', isBareName outer = true ∧
      outer.toList ++ '$' :: next' ∈ behindDollars text.toList ∧ target? next' = some name
  · obtain ⟨next', hbare, hin, ht⟩ := hbad
    have hchars : ∀ c ∈ (String.ofList (List.replicate (outer.toList.length + 2) 'x')).toList,
        c = 'x' := by
      intro c hc
      rw [String.toList_ofList] at hc
      exact List.eq_of_mem_replicate hc
    refine ⟨marking outer name (String.ofList (List.replicate (outer.toList.length + 2) 'x')),
      plain_marking fun hd => ?_, replay_marking_ne hnames hname (fun hd => ?_) (fun hd => ?_) hsep
        fun σ hσ hvalue hother => ?_⟩
    · exact absurd (hchars _ hd) (by decide)
    · exact absurd (hchars _ hd) (by decide)
    · exact absurd (hchars _ hd) (by decide)
    · refine Nat.ne_of_lt (refCount_lt_of_bare hσ hvalue hother (fun c hc => ?_) ?_ hbare hin ht)
      · rw [hchars c hc]
        decide
      · rw [String.toList_ofList, List.length_replicate]
        omega
  · obtain ⟨value, hdollar, hbang, hcomplete⟩ := exists_completion hopens
    obtain ⟨-, hrest, -⟩ := List.nodup_append.mp hnames
    refine ⟨marking outer name value, plain_marking hdollar,
      replay_marking_ne hnames hname hdollar hbang hsep fun σ hσ hvalue hother => ?_⟩
    refine (Nat.ne_of_lt (refCount_lt_of_opens hσ (List.nodup_cons.mp hrest).1 hvalue hother hcs hw
      hopens hrefers htarget hcomplete ?_)).symm
    exact fun hbare next' hin ht => hbad ⟨next', hbare, hin, ht⟩

/-- **A text is separated exactly if the order of values makes no difference to it**: for all
values without `$`, one after the other is all at once. -/
theorem separated_iff {names : List String} (hnames : names.Nodup) {text : String} :
    separated names text.toList = true ↔
      ∀ values : List (String × String), values.map Prod.fst = names →
        (∀ nv ∈ values, '$' ∉ nv.2.toList) → replay values text = bindAll values text := by
  constructor
  · rintro hsep values rfl hplain
    exact replay_eq_bindAll hnames hplain hsep
  · intro h
    cases hsep : separated names text.toList with
    | true => rfl
    | false =>
      obtain ⟨f, hplain, hne⟩ := exists_replay_ne hnames hsep
      exact absurd (h _ (map_fst_assign names f) (plain_assign hplain)) hne

end Mlog.Reference
