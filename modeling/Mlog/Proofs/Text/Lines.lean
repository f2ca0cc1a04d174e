import Mlog.Compile.Unit

/-!
# The lines of two texts

A text with a line feed and another text behind it has the lines of the two (`lines_newline`).  The
line feed may do two things to the lines before it: it ends an empty line, which does not count
without it, and it takes a carriage return along (`lines_concat_newline`).  The carriage return
means nothing to a line, since the blanks at its end are trimmed (`clean_return`, `parse_return`).
-/
set_option autoImplicit false

namespace Mlog

namespace Text

/-! ## Line feeds -/

theorem lines_ne_nil {cs : List Char} (h : cs ≠ []) : lines cs ≠ [] := by
  fun_cases lines cs with
  | case1 => exact absurd rfl h
  | case2 | case3 | case4 | case5 => simp

section Cons

variable {c : Char} {cs : List Char}

/-- A line feed takes the carriage return before it along. -/
theorem lines_return (h : cs.head? = some '\n') : lines ('\r' :: cs) = lines cs := by
  obtain ⟨rest, rfl⟩ := List.head?_eq_some_iff.mp h
  rfl

/-- Every other character goes to the first line. -/
theorem lines_cons (hc : c ≠ '\n') (hcs : c = '\r' → cs.head? ≠ some '\n') :
    lines (c :: cs) =
      match lines cs with
      | [] => [[c]]
      | line :: rest => (c :: line) :: rest := by
  have hreturn : ∀ rest, c = '\r' → cs = '\n' :: rest → False := by
    rintro rest rfl rfl
    exact hcs rfl rfl
  exact lines.eq_4 c cs hc hreturn

end Cons

/-- **The lines of a text with another text behind it.** -/
theorem lines_newline (a b : List Char) :
    lines (a ++ '\n' :: b) = lines (a ++ ['\n']) ++ lines b := by
  induction a with
  | nil => rfl
  | cons c cs ih =>
    have hhead : (cs ++ '\n' :: b).head? = (cs ++ ['\n']).head? := by cases cs <;> rfl
    by_cases hc : c = '\n'
    · subst hc
      show [] :: lines (cs ++ '\n' :: b) = [] :: lines (cs ++ ['\n']) ++ lines b
      rw [ih]
      rfl
    · rw [List.cons_append, List.cons_append]
      by_cases hr : c = '\r' ∧ (cs ++ ['\n']).head? = some '\n'
      · rw [hr.1, lines_return (hhead.trans hr.2), lines_return hr.2, ih]
      · rw [lines_cons hc fun h h' => hr ⟨h, hhead ▸ h'⟩, lines_cons hc fun h h' => hr ⟨h, h'⟩, ih]
        cases hlines : lines (cs ++ ['\n']) with
        | nil => exact absurd hlines (lines_ne_nil (by simp))
        | cons line rest => rfl

/-- What a line feed at the end does to the lines: it ends an empty line or the last one, which may
lose a carriage return. -/
theorem lines_concat_newline (a : List Char) :
    lines (a ++ ['\n']) = lines a ++ [[]] ∨ lines (a ++ ['\n']) = lines a ∨
      ∃ before last, lines a = before ++ [last ++ ['\r']] ∧
        lines (a ++ ['\n']) = before ++ [last] := by
  induction a with
  | nil => exact Or.inl rfl
  | cons c cs ih =>
    by_cases hc : c = '\n'
    · subst hc
      show [] :: lines (cs ++ ['\n']) = [] :: lines cs ++ [[]] ∨
        [] :: lines (cs ++ ['\n']) = [] :: lines cs ∨ ∃ before last,
          [] :: lines cs = before ++ [last ++ ['\r']] ∧
            [] :: lines (cs ++ ['\n']) = before ++ [last]
      rcases ih with h | h | ⟨before, last, h, h'⟩
      · exact Or.inl (by rw [h, List.cons_append])
      · exact Or.inr (Or.inl (by rw [h]))
      · exact Or.inr (Or.inr ⟨[] :: before, last, by rw [h, List.cons_append], by
          rw [h', List.cons_append]⟩)
    · rw [List.cons_append]
      by_cases hr : c = '\r' ∧ (cs ++ ['\n']).head? = some '\n'
      · obtain ⟨rfl, hhead⟩ := hr
        rw [lines_return hhead]
        cases cs with
        | nil => exact Or.inr (Or.inr ⟨[], [], rfl, rfl⟩)
        | cons d ds =>
          have hds : (d :: ds).head? = some '\n' := hhead
          rw [lines_return hds]
          exact ih
      · have hr' : c = '\r' → cs.head? ≠ some '\n' := by
          intro h h'
          obtain ⟨rest, rfl⟩ := List.head?_eq_some_iff.mp h'
          exact hr ⟨h, rfl⟩
        rw [lines_cons hc fun h h' => hr ⟨h, h'⟩, lines_cons hc hr']
        rcases ih with h | h | ⟨before, last, h, h'⟩
        · rw [h]
          cases lines cs with
          | nil => exact Or.inr (Or.inl rfl)
          | cons line rest => exact Or.inl rfl
        · rw [h]
          exact Or.inr (Or.inl rfl)
        · rw [h, h']
          cases before with
          | nil => exact Or.inr (Or.inr ⟨[], c :: last, rfl, rfl⟩)
          | cons line before => exact Or.inr (Or.inr ⟨(c :: line) :: before, last, rfl, rfl⟩)

/-! ## Blanks at the end -/

theorem trimChars_append_blank (cs : List Char) {blanks : List Char}
    (h : ∀ c ∈ blanks, isBlank c = true) : trimChars (cs ++ blanks) = trimChars cs := by
  have hreverse : ∀ c ∈ blanks.reverse, isBlank c = true := by
    intro c hc
    exact h c (List.mem_reverse.mp hc)
  unfold trimChars
  rw [List.dropWhile_append]
  split
  · next hempty =>
    have hnone : (blanks ++ []).dropWhile isBlank = [] := List.dropWhile_append_of_pos h
    rw [List.append_nil] at hnone
    rw [List.isEmpty_iff.mp hempty, hnone]
  · rw [List.reverse_append, List.dropWhile_append_of_pos hreverse]

theorem trimChars_concat_return (cs : List Char) : trimChars (cs ++ ['\r']) = trimChars cs := by
  apply trimChars_append_blank
  intro c hc
  rw [List.mem_singleton.mp hc]
  rfl

end Text

namespace Line

/-- A carriage return at the end is in a comment, or stays where it is. -/
theorem strip_concat_return (mode : Mode) (cs : List Char) :
    strip mode (cs ++ ['\r']) = strip mode cs ∨
      strip mode (cs ++ ['\r']) = strip mode cs ++ ['\r'] := by
  fun_induction strip mode cs with
  | case1 mode => cases mode <;> simp [strip]
  | case2 cs ih | case3 cs ih | case4 cs ih | case9 cs ih => exact ih
  | case5 cs ih => exact ih.imp (congrArg _) (congrArg _)
  | case6 c cs hhash hslash hstar hquote ih =>
    -- a slash at the end does not begin a comment with the carriage return either
    have hstep : strip .code (c :: (cs ++ ['\r'])) = c :: strip .code (cs ++ ['\r']) := by
      cases cs <;> simp_all [strip]
    rw [List.cons_append, hstep]
    exact ih.imp (congrArg _) (congrArg _)
  | case7 escaped c cs ih =>
    rw [List.cons_append, strip]
    exact ih.imp (congrArg _) (congrArg _)
  | case8 c cs ih =>
    rw [List.cons_append, strip]
    exact ih
  | case10 c cs hstar ih =>
    have hstep : strip .blockComment (c :: (cs ++ ['\r'])) =
        strip .blockComment (cs ++ ['\r']) := by
      cases cs <;> simp_all [strip]
    rw [List.cons_append, hstep]
    exact ih

/-- A carriage return at the end of a line is not code. -/
theorem clean_return (line : String) : clean (line ++ "\r") = clean line := by
  unfold clean
  rw [String.toList_append]
  rcases strip_concat_return .code line.toList with h | h
  · rw [show "\r".toList = ['\r'] from rfl, h]
  · rw [show "\r".toList = ['\r'] from rfl, h, Text.trimChars_concat_return]

end Line

namespace Directive

theorem split?_return (line : String) : split? (line ++ "\r") = split? line := by
  unfold split?
  rw [String.toList_append, show "\r".toList = ['\r'] from rfl, Text.trimChars_concat_return]

theorem isDirective_return (line : String) : isDirective (line ++ "\r") = isDirective line := by
  rw [isDirective, split?_return, isDirective]

theorem parse_return (line : String) : parse (line ++ "\r") = parse line := by
  have htrim : Text.trim (line ++ "\r") = Text.trim line := by
    rw [Text.trim, String.toList_append, show "\r".toList = ['\r'] from rfl,
      Text.trimChars_concat_return, Text.trim]
  unfold parse
  rw [split?_return, htrim]

end Directive

end Mlog
