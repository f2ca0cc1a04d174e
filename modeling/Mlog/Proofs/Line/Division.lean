import Mathlib.Data.List.DropRight
import Mlog.Proofs.Line.Bind
import Mlog.Proofs.Line.Quote

/-!
# Dividing a text at separators outside its strings

`Divides sep text parts` says what it means that a text is divided into parts: the text is the
parts, none of them empty, with runs of separators around them and between them.  All separators
in the runs stand outside strings, and all in the parts inside.

There is one such division of every text, and `split` finds it unless a string is left open
(`split_eq_ok_iff`).  Parts of a text that closes its strings are whole by themselves
(`whole_of_divides`), so joined by single separators they are found again (`split_intercalate`).
-/
set_option autoImplicit false

namespace Mlog.Line

/-- Behind a text, nothing but separators outside strings. -/
def IsGap (sep : Char) (before gap : List Char) : Prop :=
  Throughout (fun before c => c = sep ∧ inString before = false) before gap

/-- Behind a text, no separator but inside strings. -/
def IsUnbroken (sep : Char) (before part : List Char) : Prop :=
  Throughout (fun before c => c = sep → inString before = true) before part

/-- Behind a text, parts that are each followed by a run of separators.  The run is not empty
where another part follows. -/
inductive Divided (sep : Char) : (before text : List Char) → (parts : List (List Char)) → Prop
  | nil {before : List Char} : Divided sep before [] []
  | cons {before part gap rest : List Char} {parts : List (List Char)} (ne_nil : part ≠ [])
    (unbroken : IsUnbroken sep before part) (isGap : IsGap sep (before ++ part) gap)
    (gap_ne_nil : parts ≠ [] → gap ≠ [])
    (divided : Divided sep (before ++ part ++ gap) rest parts) :
    Divided sep before (part ++ gap ++ rest) (part :: parts)

/-- A text divided into its parts at the separators outside its strings. -/
def Divides (sep : Char) (text : List Char) (parts : List (List Char)) : Prop :=
  ∃ gap rest, text = gap ++ rest ∧ IsGap sep [] gap ∧ Divided sep gap rest parts

/-! ## The division that is found -/

section Found

variable {sep : Char} {before part gap rest : List Char} {parts : List (List Char)}

/-- The pieces of a text behind another one, without the empty ones. -/
def partsFrom (sep : Char) (before text : List Char) : List (List Char) :=
  (piecesFrom sep before text).filter (!·.isEmpty)

/-- A separator outside strings ends a piece. -/
theorem piecesFrom_sep (hsep : sep ≠ '"') (hout : inString before = false) (cs : List Char) :
    piecesFrom sep before (sep :: cs) = [] :: piecesFrom sep (before ++ [sep]) cs := by
  rw [piecesFrom_cons hsep, hout, beq_self_eq_true]
  rfl

theorem partsFrom_gap (hsep : sep ≠ '"') (h : IsGap sep before gap) (rest : List Char) :
    partsFrom sep before (gap ++ rest) = partsFrom sep (before ++ gap) rest := by
  induction gap generalizing before with
  | nil => rw [List.nil_append, List.append_nil]
  | cons c gap ih =>
    obtain ⟨⟨rfl, hout⟩, hgap⟩ := throughout_cons.mp h
    rw [List.append_cons, ← ih hgap, partsFrom, List.cons_append, piecesFrom_sep hsep hout]
    rfl

theorem piecesFrom_unbroken (hsep : sep ≠ '"') (h : IsUnbroken sep before part)
    (rest : List Char) :
    piecesFrom sep before (part ++ rest) =
      part.foldr consFirst (piecesFrom sep (before ++ part) rest) := by
  induction part generalizing before with
  | nil => rw [List.nil_append, List.append_nil, List.foldr_nil]
  | cons c part ih =>
    obtain ⟨hc, hpart⟩ := throughout_cons.mp h
    have hkeeps : (c == sep && !inString before) = false := by
      cases hin : inString before with
      | true => simp
      | false =>
        rw [hin] at hc
        simpa using hc
    rw [List.cons_append, piecesFrom_cons hsep, hkeeps, if_neg Bool.false_ne_true, ih hpart,
      List.foldr_cons, List.append_assoc, List.singleton_append]

/-- A part is found with what follows the run of separators behind it. -/
theorem partsFrom_part (hsep : sep ≠ '"') (hne : part ≠ []) (hpart : IsUnbroken sep before part)
    (hgap : IsGap sep (before ++ part) gap) (hend : gap = [] → rest = []) :
    partsFrom sep before (part ++ gap ++ rest) =
      part :: partsFrom sep (before ++ part ++ gap) rest := by
  have hkept : ∀ pieces : List (List Char),
      (part :: pieces).filter (!·.isEmpty) = part :: pieces.filter (!·.isEmpty) :=
    fun pieces => List.filter_cons_of_pos (by simpa using hne)
  rw [List.append_assoc, partsFrom, piecesFrom_unbroken hsep hpart]
  cases gap with
  | nil =>
    obtain rfl := hend rfl
    rw [List.append_nil, List.append_nil, piecesFrom_nil, foldr_consFirst, List.append_nil, hkept]
    rfl
  | cons c gap =>
    obtain ⟨⟨rfl, hout⟩, hgap⟩ := throughout_cons.mp hgap
    rw [List.cons_append, piecesFrom_sep hsep hout, foldr_consFirst, List.append_nil, hkept,
      List.append_cons (before ++ part) c gap, ← partsFrom_gap hsep hgap]
    rfl

theorem text_eq_nil_of_divided (h : Divided sep before rest []) : rest = [] := by
  cases h
  rfl

theorem parts_eq_nil_of_divided (h : Divided sep before [] parts) : parts = [] := by
  cases parts with
  | nil => rfl
  | cons part parts =>
    generalize htext : ([] : List Char) = text at h
    cases h with
    | cons hne => simp [hne] at htext

theorem partsFrom_of_divided (hsep : sep ≠ '"') {text : List Char}
    (h : Divided sep before text parts) : partsFrom sep before text = parts := by
  induction h with
  | nil => rfl
  | cons hne hpart hgap hapart hrest ih =>
    rw [partsFrom_part hsep hne hpart hgap ?_, ih]
    intro hnil
    have hlast := Classical.byContradiction fun hparts => hapart hparts hnil
    rw [hlast] at hrest
    exact text_eq_nil_of_divided hrest

/-! Every text has a division: after each part comes the longest run of separators. -/

/-- Behind a text, a separator that divides. -/
def Breaks (sep : Char) (before text : List Char) : Prop :=
  inString before = false ∧ ∃ cs, text = sep :: cs

theorem exists_gap (sep : Char) (before text : List Char) :
    ∃ gap rest, text = gap ++ rest ∧ IsGap sep before gap ∧ ¬ Breaks sep (before ++ gap) rest := by
  induction text generalizing before with
  | nil => exact ⟨[], [], rfl, throughout_nil, fun h => by simp [Breaks] at h⟩
  | cons c cs ih =>
    by_cases hbreaks : Breaks sep before (c :: cs)
    · obtain ⟨hout, cs', heq⟩ := hbreaks
      obtain ⟨rfl, rfl⟩ := List.cons.inj heq
      obtain ⟨gap, rest, rfl, hgap, hrest⟩ := ih (before ++ [c])
      exact ⟨c :: gap, rest, rfl, throughout_cons.mpr ⟨⟨rfl, hout⟩, hgap⟩, by simpa using hrest⟩
    · exact ⟨[], c :: cs, rfl, throughout_nil, by simpa using hbreaks⟩

theorem exists_part (sep : Char) (before text : List Char) :
    ∃ part tail, text = part ++ tail ∧ IsUnbroken sep before part ∧
      (tail = [] ∨ Breaks sep (before ++ part) tail) := by
  induction text generalizing before with
  | nil => exact ⟨[], [], rfl, throughout_nil, Or.inl rfl⟩
  | cons c cs ih =>
    by_cases hbreaks : Breaks sep before (c :: cs)
    · exact ⟨[], c :: cs, rfl, throughout_nil, Or.inr (by simpa using hbreaks)⟩
    · obtain ⟨part, tail, rfl, hpart, htail⟩ := ih (before ++ [c])
      refine ⟨c :: part, tail, rfl, throughout_cons.mpr ⟨?_, hpart⟩, by simpa using htail⟩
      rintro rfl
      cases hin : inString before with
      | true => rfl
      | false => exact absurd ⟨hin, _, rfl⟩ hbreaks

theorem exists_divided {text : List Char} (h : ¬ Breaks sep before text) :
    ∃ parts, Divided sep before text parts := by
  induction hlen : text.length using Nat.strongRecOn generalizing before text with
  | ind n ih =>
    obtain ⟨part, tail, rfl, hpart, htail⟩ := exists_part sep before text
    by_cases hne : part = []
    · -- a text that begins with no separator and has no first part is empty
      subst hne
      rcases htail with rfl | hbreaks
      · exact ⟨[], .nil⟩
      · exact absurd (by simpa using hbreaks) h
    · obtain ⟨gap, rest, rfl, hgap, hrest⟩ := exists_gap sep (before ++ part) tail
      have hshorter : rest.length < n := by
        have hpos := List.length_pos_iff.mpr hne
        rw [← hlen, List.length_append, List.length_append]
        omega
      obtain ⟨parts, hparts⟩ := ih rest.length hshorter hrest rfl
      refine ⟨part :: parts, ?_⟩
      rw [← List.append_assoc]
      refine .cons hne hpart hgap (fun hmore hnil => ?_) hparts
      -- without a run of separators the part goes up to the end
      subst hnil
      rcases htail with hend | hbreaks
      · obtain rfl : rest = [] := hend
        exact hmore (parts_eq_nil_of_divided hparts)
      · exact hrest (by simpa using hbreaks)

theorem exists_divides (sep : Char) (text : List Char) : ∃ parts, Divides sep text parts := by
  obtain ⟨gap, rest, htext, hgap, hrest⟩ := exists_gap sep [] text
  obtain ⟨parts, hparts⟩ := exists_divided hrest
  exact ⟨parts, gap, rest, htext, hgap, hparts⟩

theorem eq_of_divides (hsep : sep ≠ '"') {text : List Char} (h : Divides sep text parts) :
    (pieces sep false false text).filter (!·.isEmpty) = parts := by
  obtain ⟨gap, rest, rfl, hgap, hparts⟩ := h
  have hfound := partsFrom_of_divided hsep hparts
  rw [← List.nil_append gap, ← partsFrom_gap hsep hgap] at hfound
  exact hfound

/-- **`split` finds the one division of a text** that leaves no string open. -/
theorem split_eq_ok_iff (hsep : sep ≠ '"') {text : List Char} :
    split sep text = .ok parts ↔ inString text = false ∧ Divides sep text parts := by
  have hopen := isSome_openColumn text
  rw [split, openString_eq]
  cases hcolumn : openColumn text with
  | some column =>
    rw [hcolumn] at hopen
    simp [← hopen]
  | none =>
    rw [hcolumn] at hopen
    obtain ⟨parts', hparts'⟩ := exists_divides sep text
    have hfound := eq_of_divides hsep hparts'
    constructor
    · intro h
      obtain rfl := hfound.symm.trans (Except.ok.inj h)
      exact ⟨hopen.symm, hparts'⟩
    · rintro ⟨-, hparts⟩
      exact congrArg Except.ok (eq_of_divides hsep hparts)

/-- `split` fails if a string is left open, and names the quote that opens it. -/
theorem split_eq_error_iff {text : List Char} {e : UnclosedString} :
    split sep text = .error e ↔
      inString text = true ∧ (quoteColumns text).getLast? = some e.column := by
  rw [split, openString_eq, openColumn]
  cases inString text with
  | false => simp
  | true =>
    cases hlast : (quoteColumns text).getLast? with
    | none => simp
    | some column =>
      obtain ⟨column'⟩ := e
      simp

/-- Dividing fails exactly on texts that leave a string open, whatever is made of the parts. -/
theorem exists_map_split_error_iff {α : Type} {f : List (List Char) → α} {text : List Char} :
    (∃ e, (split sep text).map f = .error e) ↔ inString text = true := by
  rw [split, openString_eq, ← isSome_openColumn]
  cases openColumn text <;> simp [Except.map]

end Found

/-! ## Parts that are found again -/

/-- A text that is one part by itself. -/
structure Whole (sep : Char) (part : List Char) : Prop where
  ne_nil : part ≠ []
  unbroken : IsUnbroken sep [] part
  closed : inString part = false

section Joined

variable {sep : Char} {before gap : List Char} {parts : List (List Char)}

/-- A run of separators leaves no mark. -/
theorem marks_of_gap (hquote : sep ≠ '"') (hslash : sep ≠ '\\') (h : IsGap sep before gap)
    (hne : gap ≠ []) : inString (before ++ gap) = false ∧ isEscaped (before ++ gap) = false := by
  obtain ⟨a, c, rfl⟩ : ∃ a c, gap = a ++ [c] :=
    ⟨_, _, (List.dropLast_concat_getLast hne).symm⟩
  obtain ⟨rfl, hout⟩ := h a c [] rfl
  rw [← List.append_assoc, inString_concat, isEscaped_concat, hout]
  simp [hquote, hslash, escapesNext]

/-- A text behind one that leaves no mark is as unbroken as it is by itself. -/
theorem isUnbroken_iff (hsame : ∀ text, inString (before ++ text) = inString text)
    {part : List Char} : IsUnbroken sep before part ↔ IsUnbroken sep [] part := by
  simp only [IsUnbroken, Throughout, hsame, List.nil_append]

/-- The parts of a text that closes its strings are whole. -/
theorem whole_of_divided (hquote : sep ≠ '"') (hslash : sep ≠ '\\') {text : List Char}
    (h : Divided sep before text parts) (hstring : inString before = false)
    (hescaped : isEscaped before = false) (hclosed : inString (before ++ text) = false) :
    ∀ part ∈ parts, Whole sep part := by
  induction h with
  | nil => exact List.forall_mem_nil _
  | @cons before part gap rest parts hne hpart hgap hapart hrest ih =>
    have hsame := inString_append hstring hescaped
    have hpart' : inString part = false := by
      cases gap with
      | nil =>
        have hlast := Classical.byContradiction fun hparts => hapart hparts rfl
        rw [hlast] at hrest
        rw [text_eq_nil_of_divided hrest, List.append_nil, List.append_nil, hsame] at hclosed
        exact hclosed
      | cons c gap =>
        rw [← hsame]
        exact (throughout_cons.mp hgap).1.2
    refine List.forall_mem_cons.mpr ⟨⟨hne, (isUnbroken_iff hsame).mp hpart, hpart'⟩, ?_⟩
    cases parts with
    | nil => exact List.forall_mem_nil _
    | cons part' parts =>
      obtain ⟨hstring', hescaped'⟩ :=
        marks_of_gap hquote hslash hgap (hapart (List.cons_ne_nil _ _))
      refine ih hstring' hescaped' ?_
      simpa using hclosed

theorem whole_of_divides (hquote : sep ≠ '"') (hslash : sep ≠ '\\') {text : List Char}
    (h : Divides sep text parts) (hclosed : inString text = false) :
    ∀ part ∈ parts, Whole sep part := by
  obtain ⟨gap, rest, rfl, hgap, hparts⟩ := h
  by_cases hne : gap = []
  · subst hne
    exact whole_of_divided hquote hslash hparts rfl rfl hclosed
  · obtain ⟨hstring, hescaped⟩ := marks_of_gap hquote hslash hgap hne
    exact whole_of_divided hquote hslash hparts hstring hescaped hclosed

/-- Whole parts are the parts of the text that joins them. -/
theorem divided_intercalate (hquote : sep ≠ '"') (hslash : sep ≠ '\\')
    (h : ∀ part ∈ parts, Whole sep part) (hstring : inString before = false)
    (hescaped : isEscaped before = false) :
    Divided sep before ([sep].intercalate parts) parts ∧
      inString (before ++ [sep].intercalate parts) = false := by
  induction parts generalizing before with
  | nil => exact ⟨.nil, by simpa using hstring⟩
  | cons part parts ih =>
    obtain ⟨⟨hne, hpart, hclosed⟩, hparts⟩ := List.forall_mem_cons.mp h
    have hsame := inString_append hstring hescaped
    have hunbroken : IsUnbroken sep before part := (isUnbroken_iff hsame).mpr hpart
    cases parts with
    | nil =>
      rw [List.intercalate_singleton]
      refine ⟨?_, by rw [hsame, hclosed]⟩
      have hlast : Divided sep before (part ++ [] ++ []) [part] :=
        .cons hne hunbroken throughout_nil (absurd rfl) .nil
      simpa using hlast
    | cons part' parts =>
      have hgap : IsGap sep (before ++ part) [sep] :=
        throughout_cons.mpr ⟨⟨rfl, by rw [hsame, hclosed]⟩, throughout_nil⟩
      obtain ⟨hstring', hescaped'⟩ := marks_of_gap hquote hslash hgap (List.cons_ne_nil _ _)
      obtain ⟨hdivided, hjoined⟩ := ih hparts hstring' hescaped'
      rw [List.intercalate_cons_cons]
      refine ⟨.cons hne hunbroken hgap (fun _ => List.cons_ne_nil _ _) hdivided, ?_⟩
      simpa using hjoined

/-- **Whole parts that are joined by single separators are found again.** -/
theorem split_intercalate (hquote : sep ≠ '"') (hslash : sep ≠ '\\')
    (h : ∀ part ∈ parts, Whole sep part) :
    split sep ([sep].intercalate parts) = .ok parts := by
  obtain ⟨hdivided, hclosed⟩ := @divided_intercalate sep [] parts hquote hslash h rfl rfl
  exact (split_eq_ok_iff hquote).mpr ⟨hclosed, [], _, rfl, throughout_nil, hdivided⟩

end Joined

end Mlog.Line

/-! ## Parts without the blanks around them -/

namespace Mlog.Text

theorem exists_trimChars (cs : List Char) :
    ∃ front back, cs = front ++ trimChars cs ++ back ∧
      (∀ c ∈ front, isBlank c = true) ∧ ∀ c ∈ back, isBlank c = true := by
  refine ⟨cs.takeWhile isBlank, (cs.dropWhile isBlank).rtakeWhile isBlank, ?_, ?_, ?_⟩
  · have hback : trimChars cs ++ (cs.dropWhile isBlank).rtakeWhile isBlank =
        cs.dropWhile isBlank := List.rdropWhile_append_rtakeWhile
    rw [List.append_assoc, hback, List.takeWhile_append_dropWhile]
  · exact fun c hc => List.mem_takeWhile_imp hc
  · exact fun c hc => List.mem_rtakeWhile_imp hc

theorem trimChars_trimChars (cs : List Char) : trimChars (trimChars cs) = trimChars cs := by
  have hfront : (trimChars cs).dropWhile isBlank = trimChars cs := by
    rw [List.dropWhile_eq_self_iff]
    intro hpos
    obtain ⟨back, hback⟩ : trimChars cs <+: cs.dropWhile isBlank :=
      List.rdropWhile_prefix isBlank _
    have hfirst := List.dropWhile_get_zero_not isBlank cs
    simp only [← hback, List.get_eq_getElem, List.getElem_append_left hpos] at hfirst
    exact hfirst (by rw [List.length_append]; omega)
  show ((trimChars cs).dropWhile isBlank).rdropWhile isBlank = trimChars cs
  rw [hfront]
  exact List.rdropWhile_idempotent isBlank _

/-- No blank at either end. -/
def Trimmed (cs : List Char) : Prop :=
  (∀ c ∈ cs.head?, isBlank c = false) ∧ ∀ c ∈ cs.getLast?, isBlank c = false

theorem dropWhile_isBlank_iff {cs : List Char} :
    cs.dropWhile isBlank = cs ↔ ∀ c ∈ cs.head?, isBlank c = false := by
  cases cs with
  | nil => simp
  | cons c cs => simp [List.dropWhile_eq_self_iff]

/-- Trimming leaves a text as it is exactly if there is nothing to trim. -/
theorem trimChars_eq_self_iff {cs : List Char} : trimChars cs = cs ↔ Trimmed cs := by
  have hback : cs.rdropWhile isBlank = cs ↔ ∀ c ∈ cs.getLast?, isBlank c = false := by
    rw [List.rdropWhile, List.reverse_eq_iff, dropWhile_isBlank_iff, List.head?_reverse]
  rw [Trimmed, ← hback, ← dropWhile_isBlank_iff]
  constructor
  · intro h
    -- a text as long as the trimmed one lost nothing at its start
    have hfront : cs.dropWhile isBlank = cs := by
      refine (List.dropWhile_suffix isBlank).eq_of_length_le ?_
      calc cs.length = (trimChars cs).length := by rw [h]
        _ ≤ (cs.dropWhile isBlank).length := (List.rdropWhile_prefix isBlank _).length_le
    refine ⟨hfront, ?_⟩
    calc cs.rdropWhile isBlank = (cs.dropWhile isBlank).rdropWhile isBlank := by rw [hfront]
      _ = cs := h
  · rintro ⟨hfront, hback⟩
    show (cs.dropWhile isBlank).rdropWhile isBlank = cs
    rw [hfront, hback]

end Mlog.Text

namespace Mlog.Line

theorem not_mem_of_blank {cs : List Char} (h : ∀ c ∈ cs, Text.isBlank c = true) {d : Char}
    (hd : Text.isBlank d = false) : d ∉ cs := by
  intro hmem
  rw [h d hmem] at hd
  cases hd

/-- A whole part is whole without the blanks around it: strings end in quotes, so no blank at an
end is inside one. -/
theorem Whole.trim {sep : Char} {part : List Char} (h : Whole sep part)
    (hne : Text.trimChars part ≠ []) : Whole sep (Text.trimChars part) := by
  obtain ⟨front, back, heq, hfront, hback⟩ := Text.exists_trimChars part
  generalize Text.trimChars part = inner at hne heq
  subst heq
  have hquote : Text.isBlank '"' = false := by decide
  have hclosed : inString front = false := by
    have hnothing := inString_append_of_not_mem [] (not_mem_of_blank hfront hquote)
    rwa [List.nil_append] at hnothing
  have hsame : ∀ a, inString (front ++ a) = inString a :=
    inString_append hclosed (isEscaped_of_not_mem (not_mem_of_blank hfront (by decide)))
  refine ⟨hne, fun a c b hsplit => ?_, ?_⟩
  · have hunbroken := h.unbroken (front ++ a) c (b ++ back) (by simp [hsplit])
    rwa [List.nil_append, hsame] at hunbroken
  · have hpart := h.closed
    rwa [inString_append_of_not_mem _ (not_mem_of_blank hback hquote), hsame] at hpart

/-! ## Tokens and statements -/

/-- What it means that a function divides lines at separators outside strings and gives the parts
after a last step: it fails exactly if an odd number of quotes counts, and then names the column of
the last one; otherwise the line has one division, and the function gives its parts after the last
step; and what it gives is found again in a line that joins it by single separators. -/
structure DividesLines (sep : Char) (finish : List (List Char) → List String)
    (f : String → Except UnclosedString (List String)) : Prop where
  fails_iff : ∀ line, (∃ e, f line = .error e) ↔ (quoteColumns line.toList).length % 2 = 1
  column : ∀ line e, f line = .error e → (quoteColumns line.toList).getLast? = some e.column
  divides : ∀ line, (quoteColumns line.toList).length % 2 = 0 →
    ∃ parts, (∀ parts', Divides sep line.toList parts' ↔ parts' = parts) ∧
      f line = .ok (finish parts)
  rejoins : ∀ line texts, f line = .ok texts →
    f ((String.singleton sep).intercalate texts) = .ok texts

theorem inString_eq_true_iff {text : List Char} :
    inString text = true ↔ (quoteColumns text).length % 2 = 1 := by
  simp [inString]

theorem inString_eq_false_iff {text : List Char} :
    inString text = false ↔ (quoteColumns text).length % 2 = 0 := by
  rw [← Bool.not_eq_true, inString_eq_true_iff]
  omega

section Finish

variable {sep : Char} {finish : List (List Char) → List (List Char)}

/-- `split` and a last step divide lines, if the last step keeps parts whole and does nothing more
when it is repeated. -/
theorem dividesLines_split (hquote : sep ≠ '"') (hslash : sep ≠ '\\')
    (hwhole : ∀ parts, (∀ part ∈ parts, Whole sep part) → ∀ part ∈ finish parts, Whole sep part)
    (hfinish : ∀ parts, finish (finish parts) = finish parts) :
    DividesLines sep (fun parts => (finish parts).map String.ofList) fun line =>
      (split sep line.toList).map fun parts => (finish parts).map String.ofList where
  fails_iff line := by
    rw [← inString_eq_true_iff]
    exact exists_map_split_error_iff
  column line e h := by
    cases hsplit : split sep line.toList with
    | error e' =>
      rw [hsplit] at h
      obtain rfl : e' = e := Except.error.inj h
      exact (split_eq_error_iff.mp hsplit).2
    | ok parts =>
      rw [hsplit] at h
      cases h
  divides line heven := by
    obtain ⟨parts, hparts⟩ := exists_divides sep line.toList
    refine ⟨parts, fun parts' => ⟨fun hparts' => ?_, fun heq => heq ▸ hparts⟩, ?_⟩
    · exact (eq_of_divides hquote hparts').symm.trans (eq_of_divides hquote hparts)
    · rw [(split_eq_ok_iff hquote).mpr ⟨inString_eq_false_iff.mpr heven, hparts⟩]
      rfl
  rejoins line texts h := by
    cases hsplit : split sep line.toList with
    | error e =>
      rw [hsplit] at h
      cases h
    | ok parts =>
      rw [hsplit] at h
      obtain rfl := Except.ok.inj h
      obtain ⟨hclosed, hparts⟩ := (split_eq_ok_iff hquote).mp hsplit
      have hjoined : ((String.singleton sep).intercalate
          ((finish parts).map String.ofList)).toList = [sep].intercalate (finish parts) := by
        rw [String.toList_intercalate, String.toList_singleton, List.map_map]
        simp [Function.comp_def]
      rw [hjoined, split_intercalate hquote hslash
        (hwhole parts (whole_of_divides hquote hslash hparts hclosed))]
      simp [Except.map, hfinish]

end Finish

/-- The last step for statements: the blanks around them go, and then the empty ones. -/
theorem trimmed_idem (parts : List (List Char)) :
    ((((parts.map Text.trimChars).filter (!·.isEmpty)).map Text.trimChars).filter (!·.isEmpty)) =
      (parts.map Text.trimChars).filter (!·.isEmpty) := by
  have htrimmed : ∀ part ∈ (parts.map Text.trimChars).filter (!·.isEmpty),
      Text.trimChars part = part := by
    intro part hpart
    obtain ⟨part', -, rfl⟩ := List.mem_map.mp (List.mem_filter.mp hpart).1
    exact Text.trimChars_trimChars part'
  rw [List.map_congr_left htrimmed, List.map_id', List.filter_filter]
  simp

/-- **Tokens and statements are the parts of a line** between the spaces, or between the
semicolons, outside its strings; statements come without the blanks around them, and without those
that are nothing but blanks. -/
theorem tokens_statements_divide :
    DividesLines ' ' (fun parts => parts.map String.ofList) tokens ∧
      DividesLines ';' (fun parts =>
        ((parts.map Text.trimChars).filter (!·.isEmpty)).map String.ofList) statements := by
  constructor
  · exact @dividesLines_split ' ' id (by decide) (by decide) (fun _ h => h) fun _ => rfl
  · refine @dividesLines_split ';' (fun parts => (parts.map Text.trimChars).filter (!·.isEmpty))
      (by decide) (by decide) (fun parts hparts part hpart => ?_) trimmed_idem
    obtain ⟨hmem, hne⟩ := List.mem_filter.mp hpart
    obtain ⟨part', hpart', rfl⟩ := List.mem_map.mp hmem
    exact (hparts part' hpart').trim (by simpa using hne)

end Mlog.Line
