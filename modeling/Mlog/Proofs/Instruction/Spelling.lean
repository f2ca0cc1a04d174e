import Mlog.Param.Signature
import Mlog.Proofs.Except
import Mlog.Proofs.Text.Words

/-!
# Parameters and signatures as they are written

A parameter is read by taking marks off its text, from outside in, and written by putting them on
again.  Nothing is lost on the way, so the text of a parameter that was read is the text it was read
from.  A name may hold marks of its own, even the marks that stand around it: what is read from
`......a?:any?` is optional and variadic and has the name `...a?`.  What is not possible is a mark
in the name where a mark of the parameter is looked for and is not there; `Plain` says so, and
`parse_eq_ok_iff` that the texts of plain parameters are all that is read.
-/
set_option autoImplicit false

namespace Mlog

/-! ## Cutting at a character -/

namespace Text

variable {sep : Char} {cs before after : List Char}

theorem cutFirst_eq_none_iff : cutFirst sep cs = none ↔ sep ∉ cs := by
  induction cs with
  | nil => simp [cutFirst]
  | cons c cs ih =>
    by_cases hc : c = sep
    · simp [cutFirst, hc]
    · simp [cutFirst, hc, ih, Ne.symm hc]

theorem cutFirst_append (h : sep ∉ before) (after : List Char) :
    cutFirst sep (before ++ sep :: after) = some (before, after) := by
  induction before with
  | nil => simp [cutFirst]
  | cons c before ih =>
    rw [List.mem_cons, not_or] at h
    simp [cutFirst, Ne.symm h.1, ih h.2]

theorem of_cutFirst (h : cutFirst sep cs = some (before, after)) :
    cs = before ++ sep :: after ∧ sep ∉ before := by
  by_cases hmem : sep ∈ cs
  · -- the text has a first separator, and is cut there
    obtain ⟨front, back, rfl, hfront⟩ := List.eq_append_cons_of_mem hmem
    rw [cutFirst_append hfront] at h
    obtain ⟨rfl, rfl⟩ := Prod.mk.inj (Option.some.inj h)
    exact ⟨rfl, hfront⟩
  · rw [cutFirst_eq_none_iff.mpr hmem] at h
    cases h

end Text

/-! ## Marks -/

namespace Param

/-- A mark where it is, and nothing where it is not. -/
def mark (there : Bool) (cs : List Char) : List Char := if there then cs else []

/-- The mark of a variadic parameter. -/
def dots : List Char := ['.', '.', '.']

section Marks

variable {c : Char} {cs rest : List Char} {there : Bool}

theorem stripEnd_mark (h : there = false → rest.getLast? ≠ some c) :
    stripEnd c (rest ++ mark there [c]) = (rest, there) := by
  cases there with
  | true => simp [stripEnd, mark]
  | false => simp [stripEnd, mark, h rfl]

theorem of_stripEnd (h : stripEnd c cs = (rest, there)) :
    cs = rest ++ mark there [c] ∧ (there = false → rest.getLast? ≠ some c) := by
  unfold stripEnd at h
  split at h
  · next hlast =>
    obtain ⟨rfl, rfl⟩ := Prod.mk.inj h
    obtain ⟨front, rfl⟩ := List.getLast?_eq_some_iff.mp (beq_iff_eq.mp hlast)
    simp [mark]
  · next hlast =>
    obtain ⟨rfl, rfl⟩ := Prod.mk.inj h
    exact ⟨by simp [mark], fun _ => by simpa using hlast⟩

theorem stripDots_mark (h : there = false → ¬ dots <+: rest) :
    stripDots (mark there dots ++ rest) = (rest, there) := by
  cases there with
  | true => rfl
  | false =>
    show stripDots rest = _
    unfold stripDots
    split
    · next cs => exact absurd ⟨cs, rfl⟩ (h rfl)
    · rfl

theorem of_stripDots (h : stripDots cs = (rest, there)) :
    cs = mark there dots ++ rest ∧ (there = false → ¬ dots <+: rest) := by
  unfold stripDots at h
  split at h
  · obtain ⟨rfl, rfl⟩ := Prod.mk.inj h
    exact ⟨rfl, fun hno => nomatch hno⟩
  · next hne =>
    obtain ⟨rfl, rfl⟩ := Prod.mk.inj h
    refine ⟨rfl, ?_⟩
    rintro - ⟨back, rfl⟩
    exact hne back rfl

theorem stripStar_mark (h : there = false → rest.head? ≠ some '*') :
    stripStar (mark there ['*'] ++ rest) = (rest, there) := by
  cases there with
  | true => rfl
  | false =>
    show stripStar rest = _
    unfold stripStar
    split
    · exact absurd rfl (h rfl)
    · rfl

theorem of_stripStar (h : stripStar cs = (rest, there)) : cs = mark there ['*'] ++ rest := by
  unfold stripStar at h
  split at h <;>
    · obtain ⟨rfl, rfl⟩ := Prod.mk.inj h
      rfl

end Marks

/-! ## Parameters -/

/-- A parameter whose name is not mistaken for something else: it has no colon, does not begin with
dots that would make the parameter variadic, and a keyword does not end in a mark that would make it
optional.  A value has a name. -/
structure Plain (p : Param) : Prop where
  no_colon : ':' ∉ p.name.toList
  no_dots : p.isVariadic = false → ¬ dots <+: p.name.toList
  no_mark : p.form = .keyword → p.optional = false → p.name.toList.getLast? ≠ some '?'
  named : p.form ≠ .keyword → p.name ≠ ""

theorem toList_text (p : Param) :
    p.text.toList =
      (match p.form with
        | .keyword => p.name.toList
        | .value ty written variadic =>
          mark variadic dots ++
            (p.name.toList ++ ':' :: (mark written ['*'] ++ ty.name.toList))) ++
        mark p.optional ['?'] := by
  obtain ⟨name, form, optional⟩ := p
  cases form with
  | keyword => cases optional <;> simp [text, mark]
  | value ty written variadic =>
    cases optional <;> cases written <;> cases variadic <;> simp [text, mark, dots]

/-- What begins with dots does so before the first colon. -/
theorem dots_prefix_of_append {name rest : List Char} (h : dots <+: name ++ ':' :: rest) :
    dots <+: name := by
  unfold dots at h ⊢
  rcases name with _ | ⟨a, _ | ⟨b, _ | ⟨c, name⟩⟩⟩ <;> simp at h ⊢
  exact h

theorem getLast?_append_name (cs : List Char) (ty : Ty) :
    (cs ++ ty.name.toList).getLast? ≠ some '?' := by
  obtain ⟨c, hlast, hc⟩ : ∃ c, ty.name.toList.getLast? = some c ∧ c ≠ '?' := by
    cases ty <;> exact ⟨_, rfl, by decide⟩
  simpa [List.getLast?_append, hlast] using hc

theorem head?_name (ty : Ty) : ty.name.toList.head? ≠ some '*' := by
  cases ty <;> decide

/-- What is read is plain, and its text is the text it was read from. -/
theorem text_of_parse {spec : String} {p : Param} (h : parse spec = .ok p) :
    p.Plain ∧ p.text = spec := by
  rw [← String.toList_inj, toList_text]
  unfold parse at h
  rcases hend : stripEnd '?' spec.toList with ⟨cs, optional⟩
  rcases hdots : stripDots cs with ⟨body, variadic⟩
  obtain ⟨hspec, hmark⟩ := of_stripEnd hend
  obtain ⟨rfl, hno⟩ := of_stripDots hdots
  simp only [hend, hdots] at h
  rw [hspec]
  cases hcut : Text.cutFirst ':' body with
  | none =>
    simp only [hcut] at h
    cases variadic with
    | true => cases h
    | false =>
      obtain rfl := Except.ok.inj h
      have hcolon := Text.cutFirst_eq_none_iff.mp hcut
      have hplain : Plain ⟨String.ofList body, .keyword, optional⟩ :=
        { no_colon := by simpa using hcolon
          no_dots := fun _ => by simpa using hno rfl
          no_mark := fun _ ho => by simpa [mark] using hmark ho
          named := fun hk => absurd rfl hk }
      exact ⟨hplain, by simp [mark]⟩
  | some parts =>
    obtain ⟨name, tyText⟩ := parts
    obtain ⟨rfl, hcolon⟩ := Text.of_cutFirst hcut
    rcases hstar : stripStar tyText with ⟨tyName, written⟩
    obtain rfl := of_stripStar hstar
    simp only [hcut, hstar] at h
    cases hty : Ty.ofName? (String.ofList tyName) with
    | none =>
      rw [hty] at h
      cases h
    | some ty =>
      simp only [hty] at h
      split at h
      · cases h
      · next hname =>
        obtain rfl := Except.ok.inj h
        have htyName : ty.name.toList = tyName := by simp [Ty.name_of_ofName? hty]
        have hplain : Plain ⟨String.ofList name, .value ty written variadic, optional⟩ :=
          { no_colon := by simpa using hcolon
            no_dots := fun hv hprefix =>
              hno hv ((String.toList_ofList ▸ hprefix).trans (List.prefix_append ..))
            no_mark := fun hk => nomatch hk
            named := fun _ => by simpa using hname }
        exact ⟨hplain, by simp [htyName]⟩

/-- A plain parameter is read from its text. -/
theorem parse_text {p : Param} (h : p.Plain) : parse p.text = .ok p := by
  unfold parse
  rw [toList_text]
  obtain ⟨name, form, optional⟩ := p
  obtain ⟨hcolon, hno, hmark, hnamed⟩ := h
  cases form with
  | keyword =>
    simp only [stripEnd_mark (hmark rfl)]
    have hdots : stripDots (mark false dots ++ name.toList) = (name.toList, false) :=
      stripDots_mark fun _ => hno rfl
    rw [show mark false dots ++ name.toList = name.toList from rfl] at hdots
    simp only [hdots, Text.cutFirst_eq_none_iff.mpr hcolon]
    simp
  | value ty written variadic =>
    have hname : name ≠ "" := hnamed (by simp)
    have hlast : (mark variadic dots ++
        (name.toList ++ ':' :: (mark written ['*'] ++ ty.name.toList))).getLast? ≠ some '?' := by
      simpa using
        getLast?_append_name (mark variadic dots ++ (name.toList ++ ':' :: mark written ['*'])) ty
    have hbody : variadic = false →
        ¬ dots <+: name.toList ++ ':' :: (mark written ['*'] ++ ty.name.toList) :=
      fun hv hprefix => hno hv (dots_prefix_of_append hprefix)
    simp only [stripEnd_mark fun _ => hlast, stripDots_mark hbody, Text.cutFirst_append hcolon,
      stripStar_mark fun _ => head?_name ty, String.ofList_toList, Ty.ofName?_name]
    simp [hname]

/-- **Reading and writing a parameter** undo each other: the texts of plain parameters are the ones
that are read. -/
theorem parse_eq_ok_iff {spec : String} {p : Param} :
    parse spec = .ok p ↔ p.Plain ∧ p.text = spec := by
  constructor
  · exact text_of_parse
  · rintro ⟨hplain, rfl⟩
    exact parse_text hplain

end Param

/-! ## Signatures -/

namespace Signature

theorem mapM_parse_eq_ok_iff {ws : List String} {params : List Param} :
    ws.mapM Param.parse = .ok params ↔ (∀ p ∈ params, p.Plain) ∧ params.map Param.text = ws := by
  induction ws generalizing params with
  | nil => cases params <;> simp [pure, Except.pure]
  | cons word ws ih =>
    rw [List.mapM_cons, Except.bind_eq_ok_iff]
    constructor
    · rintro ⟨p, hp, h⟩
      obtain ⟨ps, hps, h⟩ := Except.bind_eq_ok_iff.mp h
      obtain rfl := Except.ok.inj h
      obtain ⟨hplain, htext⟩ := Param.parse_eq_ok_iff.mp hp
      obtain ⟨hplains, htexts⟩ := ih.mp hps
      exact ⟨List.forall_mem_cons.mpr ⟨hplain, hplains⟩, by rw [List.map_cons, htext, htexts]⟩
    · rintro ⟨hplain, htexts⟩
      cases params with
      | nil => cases htexts
      | cons p ps =>
        obtain ⟨hp, hps⟩ := List.forall_mem_cons.mp hplain
        obtain ⟨htext, htexts⟩ := List.cons.inj htexts
        exact ⟨p, Param.parse_eq_ok_iff.mpr ⟨hp, htext⟩,
          Except.bind_eq_ok_iff.mpr ⟨ps, ih.mpr ⟨hps, htexts⟩, rfl⟩⟩

/-- **A signature is read** if its words are the texts of plain parameters, and these have a
shape that is allowed. -/
theorem parse_eq_ok_iff {text : String} {params : List Param} :
    parse text = .ok params ↔
      (∀ p ∈ params, p.Plain) ∧ params.map Param.text = Text.words text ∧
        checkShape false false params = .ok () := by
  rw [parse, Except.bind_eq_ok_iff, ← and_assoc, ← mapM_parse_eq_ok_iff]
  constructor
  · rintro ⟨read, hread, h⟩
    obtain ⟨⟨⟩, hshape, h⟩ := Except.bind_eq_ok_iff.mp h
    obtain rfl := Except.ok.inj h
    exact ⟨hread, hshape⟩
  · rintro ⟨hread, hshape⟩
    exact ⟨params, hread, Except.bind_eq_ok_iff.mpr ⟨(), hshape, rfl⟩⟩

/-- **Parameters and signatures survive being read and written.**  A parameter that is read has the
text it was read from, so no two texts are read alike.  The texts of the parameters of a signature,
with single spaces between them, are the signature without superfluous blanks, and are read as the
same parameters. -/
theorem text_round_trip :
    (∀ spec p, Param.parse spec = .ok p ↔ p.Plain ∧ p.text = spec) ∧
    (∀ spec spec' p, Param.parse spec = .ok p → Param.parse spec' = .ok p → spec = spec') ∧
    ∀ text params, parse text = .ok params →
      " ".intercalate (params.map Param.text) = " ".intercalate (Text.words text) ∧
        parse (" ".intercalate (params.map Param.text)) = .ok params := by
  refine ⟨fun spec p => Param.parse_eq_ok_iff, fun spec spec' p h h' => ?_,
    fun text params h => ?_⟩
  · rw [← (Param.text_of_parse h).2, (Param.text_of_parse h').2]
  · obtain ⟨hplain, hwords, hshape⟩ := parse_eq_ok_iff.mp h
    refine ⟨by rw [hwords], parse_eq_ok_iff.mpr ⟨hplain, ?_, hshape⟩⟩
    rw [hwords, Text.words_intercalate fun word => Text.singleWord_of_mem_words]

/-- Names with marks in them, and words with a tab between them and blanks around. -/
theorem text_round_trip_marks :
    let text := " a??? \t......b*:*any?  "
    let a : Param := ⟨"a??", .keyword, true⟩
    let b : Param := ⟨"...b*", .value .any true true, true⟩
    parse text = .ok [a, b] ∧ Param.parse "a???" = .ok a ∧
      (∀ spec, Param.parse spec = .ok a → spec = "a???") ∧
      " ".intercalate ([a, b].map Param.text) = "a??? ......b*:*any?" ∧
      parse "a??? ......b*:*any?" = .ok [a, b] := by
  intro text a b
  obtain ⟨hparam, hinjective, hsignature⟩ := text_round_trip
  have hread : parse " a??? \t......b*:*any?  " =
      .ok [⟨"a??", .keyword, true⟩, ⟨"...b*", .value .any true true, true⟩] := by cbv
  have ha : Param.parse "a???" = .ok a := rfl
  have hwords : " ".intercalate (Text.words text) = "a??? ......b*:*any?" := by decide
  obtain ⟨htext, hagain⟩ := hsignature text [a, b] hread
  rw [hwords] at htext
  rw [htext] at hagain
  exact ⟨hread, ha, fun spec h => hinjective spec "a???" a h ha, htext, hagain⟩

end Signature

end Mlog
