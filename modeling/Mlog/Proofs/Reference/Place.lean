import Mlog.Proofs.Reference.Scan

/-!
# The place of a reference

Where a text refers to a name it is made of what stands before the reference, the reference as it is
written, and what stands after it, and the three are filled on their own (`fill_written`).  So a
reference is still where it was if its name has no value.  It may not be one any more, though: the
text after it is filled too, and may then begin with word characters, which a bare name takes in.
A value for the name is put in its place exactly if that does not happen (`Place.safe_iff`).
-/
set_option autoImplicit false

namespace Mlog.Reference

/-- A reference to a name as it is written. -/
def written (name : String) (delimited : Bool) : String :=
  if delimited then "$(" ++ name ++ ")" else "$" ++ name

/-- A reference ends where it is written to end: a bare name would take in word characters behind
it. -/
def Ends (delimited : Bool) (after : String) : Prop :=
  delimited = true ∨ ∀ c ∈ after.toList.head?, Text.isWord c = false

instance (delimited : Bool) (after : String) : Decidable (Ends delimited after) :=
  inferInstanceAs (Decidable (_ ∨ _))

/-- Whether a name can be referred to in a way of writing. -/
def isName (delimited : Bool) (name : String) : Bool :=
  if delimited then isDelimitedName name else isBareName name

/-- A place where a text refers to a name. -/
structure Place (name text : String) where
  before : String
  delimited : Bool
  after : String
  text_eq : text = before ++ written name delimited ++ after
  isName : isName delimited name = true
  ends : Ends delimited after

section Written

variable {name : String} {delimited : Bool} {after : String}

/-- What is written is read as a reference if it ends there. -/
theorem refers_written (hname : isName delimited name = true) (hends : Ends delimited after) :
    ∃ w, (written name delimited).toList = '$' :: w ∧ '$' ∉ w ∧
      Refers name (w ++ after.toList) after.toList := by
  have hrefers : ∃ w, (written name delimited).toList = '$' :: w ∧
      Refers name (w ++ after.toList) after.toList := by
    cases delimited with
    | true => exact ⟨'(' :: (name.toList ++ [')']), by simp [written], Or.inr ⟨hname, by simp⟩⟩
    | false =>
      refine ⟨name.toList, by simp [written], Or.inl ⟨hname, rfl, fun c hc => ?_⟩⟩
      rcases hends with hends | hends
      · cases hends
      · exact hends c hc
  obtain ⟨w, hw, href⟩ := hrefers
  obtain ⟨p, hp, hplain⟩ := href.not_mem
  obtain rfl := List.append_cancel_right hp
  exact ⟨w, hw, hplain, href⟩

/-- **A text is filled before a reference, at it and after it.** -/
theorem fill_written (hname : isName delimited name = true) (hends : Ends delimited after)
    (value : String → Option String) (before : String) :
    fill value (before ++ written name delimited ++ after) =
      fill value before ++ (value name).getD (written name delimited) ++ fill value after := by
  obtain ⟨w, hw, hplain, href⟩ := refers_written hname hends
  apply String.toList_injective
  simp only [toList_fill, String.toList_append, hw, List.append_assoc, List.cons_append]
  rw [fillChars_append (breaks_dollar _)]
  cases hv : value name with
  | some text => rw [fillChars_of_refers href hv, Option.getD_some]
  | none =>
    have hnone : ∀ n, target? (w ++ after.toList) = some n → value n = none := by
      intro n hn
      obtain ⟨rest, hr⟩ := target?_eq_some_iff.mp hn
      rw [← (href.unique hr).1, hv]
    rw [fillChars_of_none hnone, fillChars_append_of_not_mem hplain, Option.getD_none, hw,
      List.cons_append]

theorem bind_written (hname : isName delimited name = true) (hends : Ends delimited after)
    (value before : String) :
    bind name value (before ++ written name delimited ++ after) =
      bind name value before ++ value ++ bind name value after := by
  rw [bind, fill_written hname hends, if_pos rfl, Option.getD_some]
  rfl

/-- A reference that does not end where it is written to end is one to another name, so nothing is
put in its place. -/
theorem bind_written_ne (hname : isName delimited name = true) (hends : ¬ Ends delimited after)
    {value : String} (hvalue : '$' ∉ value.toList) (before : String) :
    bind name value (before ++ written name delimited ++ after) ≠
      bind name value before ++ value ++ bind name value after := by
  obtain ⟨hbare, hword⟩ := not_or.mp hends
  obtain rfl : delimited = false := by simpa using hbare
  obtain ⟨c, rest, hafter, hc⟩ : ∃ c rest, after.toList = c :: rest ∧ Text.isWord c = true := by
    cases h : after.toList with
    | nil => exact absurd (by simp [h]) hword
    | cons c rest => exact ⟨c, rest, rfl, by simpa [h] using hword⟩
  have hdollar : c ≠ '$' := by
    rintro rfl
    exact absurd hc (by decide)
  have htarget : ∀ n, target? (name.toList ++ after.toList) = some n →
      (if n = name then some value else none) = none := by
    intro n hn
    refine if_neg ?_
    rintro rfl
    obtain ⟨r, ⟨-, hr, hstop⟩ | ⟨-, hr⟩⟩ := target?_eq_some_iff.mp hn
    · rw [← List.append_cancel_left hr, hafter] at hstop
      rw [hstop c rfl] at hc
      cases hc
    · -- a bare name does not begin with a parenthesis
      obtain ⟨d, ds, hds, hd, -⟩ := isBareName_iff.mp hname
      rw [hds] at hr
      obtain ⟨rfl, -⟩ := List.cons.inj hr
      exact absurd hd (by decide)
  intro h
  have hlist := congrArg String.toList h
  rw [bind, toList_fill, String.toList_append, String.toList_append, List.append_assoc,
    show (written name false).toList = '$' :: name.toList by simp [written], List.cons_append,
    fillChars_append (breaks_dollar _), fillChars_of_none htarget, String.toList_append,
    String.toList_append, bind, toList_fill, List.append_assoc, bind, toList_fill, hafter,
    fillChars_cons hdollar] at hlist
  have hrest := List.append_cancel_left hlist
  -- what is left begins with the `$` that was kept on one side, and not on the other
  cases hv : value.toList with
  | nil =>
    rw [hv] at hrest
    exact hdollar (List.cons.inj hrest).1.symm
  | cons d ds =>
    rw [hv] at hrest hvalue
    rw [(List.cons.inj hrest).1] at hvalue
    exact hvalue List.mem_cons_self

end Written

namespace Place

variable {name text : String} (p : Place name text) (value : String → Option String)

/-- Filling the text keeps the reference where it is, and it ends there. -/
def Safe : Prop :=
  (value name = none ∨ value name = some (written name p.delimited)) ∧
    Ends p.delimited (fill value p.after)

instance : Decidable (p.Safe value) := inferInstanceAs (Decidable (_ ∧ _))

/-- Filling the text leaves the reference in place. -/
def Stays : Prop :=
  fill value text =
    fill value p.before ++ written name p.delimited ++ fill value p.after

theorem stays_iff :
    p.Stays value ↔ value name = none ∨ value name = some (written name p.delimited) := by
  unfold Stays
  rw [congrArg (fill value) p.text_eq, fill_written p.isName p.ends]
  cases value name with
  | none => simp
  | some filled =>
    rw [Option.getD_some, String.append_left_inj, String.append_right_inj]
    simp

theorem bind_text (v : String) :
    bind name v text = bind name v p.before ++ v ++ bind name v p.after := by
  rw [congrArg (bind name v) p.text_eq, bind_written p.isName p.ends]

/-- **When a name gets its value after a text was filled**: the reference must stay in place, and
still end there. -/
theorem safe_iff {v : String} (hv : '$' ∉ v.toList) :
    p.Safe value ↔ p.Stays value ∧
      bind name v (fill value text) =
        bind name v (fill value p.before) ++ v ++ bind name v (fill value p.after) := by
  rw [Safe, ← stays_iff]
  refine and_congr_right fun hstays => ?_
  rw [show fill value text = _ from hstays]
  constructor
  · intro hends
    exact bind_written p.isName hends v _
  · intro h
    exact Classical.byContradiction fun hends => bind_written_ne p.isName hends hv _ h

end Place

end Mlog.Reference
