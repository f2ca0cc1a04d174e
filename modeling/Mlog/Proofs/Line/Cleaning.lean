import Mathlib.Data.List.Infix
import Mlog.Proofs.Line.Division
import Mlog.Proofs.Text.Lines

/-!
# Cleaned lines and their strings

Cleaning reads a line in four modes (`modes`) and copies what it reads outside comments
(`strip_eq_copied`).  A cleaned line holds no comment: read once more, it is in code or in a string
throughout (`reread_clean`), so that cleaning it again changes nothing (`clean_idempotent`).

The cleaned line is then divided, and both readings should find the same strings in it.  Inside
strings they treat quotes alike.  In code they do not: cleaning opens a string at every quote,
dividing only at one that is not escaped.  So they agree exactly on lines in which every quote
outside strings opens one (`clean_strings_agree_iff`).
-/
set_option autoImplicit false

namespace Mlog.Line

/-- Inside a string literal. -/
def Mode.isString : Mode → Bool
  | .string _ => true
  | _ => false

/-- Outside comments. -/
def Mode.isText : Mode → Bool
  | .code | .string _ => true
  | _ => false

/-- The modes in which cleaning reads a text: before each character, and behind the last. -/
def modes : Mode → List Char → List Mode
  | mode, [] => [mode]
  | .code, '#' :: cs => .code :: modes .lineComment cs
  | .code, '/' :: '/' :: cs => .code :: .lineComment :: modes .lineComment cs
  | .code, '/' :: '*' :: cs => .code :: .blockComment :: modes .blockComment cs
  | .code, '"' :: cs => .code :: modes (.string false) cs
  | .code, _ :: cs => .code :: modes .code cs
  | .string escaped, c :: cs =>
    .string escaped ::
      modes (if c == '"' && !escaped then .code else .string (escapesNext escaped c)) cs
  | .lineComment, c :: cs => .lineComment :: modes (if c == '\n' then .code else .lineComment) cs
  | .blockComment, '*' :: '/' :: cs => .blockComment :: .blockComment :: modes .code cs
  | .blockComment, _ :: cs => .blockComment :: modes .blockComment cs

/-- The mode behind the last character. -/
def endMode (mode : Mode) (text : List Char) : Mode := (modes mode text).getLastD mode

theorem exists_modes_eq_cons (mode : Mode) (cs : List Char) :
    ∃ rest, modes mode cs = mode :: rest := by
  fun_cases modes mode cs <;> exact ⟨_, rfl⟩

theorem getLastD_modes (mode default : Mode) (cs : List Char) :
    (modes mode cs).getLastD default = endMode mode cs := by
  obtain ⟨rest, hrest⟩ := exists_modes_eq_cons mode cs
  rw [endMode, hrest, List.getLastD_cons, List.getLastD_cons]

/-- The characters with a mode outside comments on either side. -/
def copied : List Char → List Mode → List Char
  | c :: cs, before :: behind :: rest =>
    if before.isText && behind.isText then c :: copied cs (behind :: rest)
    else copied cs (behind :: rest)
  | _, _ => []

theorem copied_modes (before behind : Mode) (c : Char) (cs : List Char) :
    copied (c :: cs) (before :: modes behind cs) =
      if before.isText && behind.isText then c :: copied cs (modes behind cs)
      else copied cs (modes behind cs) := by
  obtain ⟨rest, hrest⟩ := exists_modes_eq_cons behind cs
  rw [hrest, copied]

/-- **Cleaning keeps what it reads outside comments**, and no mark of a comment. -/
theorem strip_eq_copied (mode : Mode) (cs : List Char) :
    strip mode cs = copied cs (modes mode cs) := by
  fun_induction strip mode cs with
  | case1 mode => cases mode <;> rfl
  | case2 cs ih | case5 cs ih | case8 c cs ih =>
    rw [modes, copied_modes, ih]
    rfl
  | case3 cs ih | case4 cs ih | case9 cs ih =>
    rw [modes, copied, copied_modes, ih]
    rfl
  | case6 c cs hhash hslash hstar hquote ih =>
    rw [modes, copied_modes, ih]
    · rfl
    all_goals assumption
  | case7 escaped c cs ih =>
    rw [modes, copied_modes, ih]
    split <;> rfl
  | case10 c cs hends ih =>
    rw [modes, copied_modes, ih]
    · rfl
    · exact hends

/-! ## One character that is copied -/

/-- Whether a character is copied, given what follows it: in code, whether it opens no comment. -/
def Mode.copies : Mode → Char → List Char → Bool
  | .code, c, cs => c != '#' && (c != '/' || cs.head? != some '/' && cs.head? != some '*')
  | .string _, _, _ => true
  | _, _, _ => false

/-- The mode behind a character that is copied. -/
def Mode.next : Mode → Char → Mode
  | .code, c => if c == '"' then .string false else .code
  | .string escaped, c =>
    if c == '"' && !escaped then .code else .string (escapesNext escaped c)
  | mode, _ => mode

section Copied

variable {mode : Mode} {c : Char} {cs : List Char}

theorem copies_code_iff :
    Mode.copies .code c cs = true ↔
      c ≠ '#' ∧ (c = '/' → cs.head? ≠ some '/' ∧ cs.head? ≠ some '*') := by
  simp [Mode.copies, Decidable.imp_iff_not_or]

theorem next_code_of_ne (h : c ≠ '"') : Mode.next .code c = .code := by
  rw [Mode.next, if_neg (by simpa using h)]

/-- A character that is copied goes out, and its mode stands in front of the modes behind it. -/
theorem read_cons (h : mode.copies c cs = true) :
    strip mode (c :: cs) = c :: strip (mode.next c) cs ∧
      modes mode (c :: cs) = mode :: modes (mode.next c) cs := by
  cases mode with
  | string escaped =>
    rw [strip, modes]
    exact ⟨rfl, rfl⟩
  | lineComment => cases h
  | blockComment => cases h
  | code =>
    obtain ⟨hhash, hslash⟩ := copies_code_iff.mp h
    by_cases hquote : c = '"'
    · subst hquote
      exact ⟨rfl, rfl⟩
    · rw [next_code_of_ne hquote, strip, modes]
      · exact ⟨rfl, rfl⟩
      all_goals grind

/-- Read outside comments from start to end. -/
def Uncommented (mode : Mode) (text : List Char) : Prop := ∀ m ∈ modes mode text, m.isText = true

theorem uncommented_nil (h : mode.isText = true) : Uncommented mode [] := by
  rw [Uncommented, modes]
  simpa using h

theorem isText_of_copies (h : mode.copies c cs = true) : mode.isText = true := by
  cases mode with
  | code | string => rfl
  | lineComment | blockComment => cases h

/-- A character that is not copied is read in a comment, or opens one. -/
theorem copies_of_uncommented (h : Uncommented mode (c :: cs)) : mode.copies c cs = true := by
  obtain ⟨rest, hrest⟩ := exists_modes_eq_cons mode (c :: cs)
  have hmode : mode.isText = true := h mode (by simp [hrest])
  cases mode with
  | string => rfl
  | lineComment | blockComment => cases hmode
  | code =>
    have hline : Mode.lineComment ∉ modes .code (c :: cs) := fun hm => nomatch h _ hm
    have hblock : Mode.blockComment ∉ modes .code (c :: cs) := fun hm => nomatch h _ hm
    rw [copies_code_iff]
    refine ⟨?_, ?_⟩
    · rintro rfl
      obtain ⟨comment, hcomment⟩ := exists_modes_eq_cons .lineComment cs
      exact hline (by simp [modes, hcomment])
    · rintro rfl
      refine ⟨fun hslash => ?_, fun hstar => ?_⟩
      · obtain ⟨comment, rfl⟩ := List.head?_eq_some_iff.mp hslash
        exact hline (by simp [modes])
      · obtain ⟨comment, rfl⟩ := List.head?_eq_some_iff.mp hstar
        exact hblock (by simp [modes])

theorem uncommented_cons :
    Uncommented mode (c :: cs) ↔ mode.copies c cs = true ∧ Uncommented (mode.next c) cs := by
  constructor
  · intro h
    have hcopies := copies_of_uncommented h
    refine ⟨hcopies, fun m hm => h m ?_⟩
    rw [(read_cons hcopies).2]
    exact List.mem_cons_of_mem _ hm
  · rintro ⟨hcopies, hrest⟩
    rw [Uncommented, (read_cons hcopies).2]
    exact List.forall_mem_cons.mpr ⟨isText_of_copies hcopies, hrest⟩

theorem endMode_cons (h : mode.copies c cs = true) :
    endMode mode (c :: cs) = endMode (mode.next c) cs := by
  rw [endMode, (read_cons h).2, List.getLastD_cons, getLastD_modes]

end Copied

/-! ## A text without its comments -/

/-- The mode in which the next character that is copied is read again. -/
def Mode.resumed : Mode → Mode
  | .string escaped => .string escaped
  | _ => .code

section Reread

variable {mode : Mode} {c : Char} {cs : List Char}

theorem resumed_of_isText (h : mode.isText = true) : mode.resumed = mode := by
  cases mode with
  | code | string => rfl
  | lineComment | blockComment => cases h

theorem isText_next (h : mode.isText = true) : (mode.next c).isText = true := by
  cases mode with
  | lineComment | blockComment => cases h
  | code | string =>
    rw [Mode.next]
    split <;> rfl

/-- A comment that nothing ends swallows the rest. -/
theorem strip_lineComment (h : '\n' ∉ cs) : strip .lineComment cs = [] := by
  induction cs with
  | nil => rfl
  | cons c cs ih =>
    rw [List.mem_cons, not_or] at h
    rw [strip, if_neg (by simpa using Ne.symm h.1), ih h.2]

/-- What is copied first is what the text begins with, unless it begins with a comment. -/
theorem head?_strip (hline : '\n' ∉ cs) (hslash : cs.head? ≠ some '/') :
    (strip .code cs).head? = none ∨ (strip .code cs).head? = cs.head? := by
  cases cs with
  | nil => exact Or.inl rfl
  | cons d cs =>
    by_cases hhash : d = '#'
    · subst hhash
      left
      rw [strip, strip_lineComment (fun h => hline (List.mem_cons_of_mem _ h)), List.head?_nil]
    · right
      have hcopies : Mode.copies .code d cs = true :=
        copies_code_iff.mpr ⟨hhash, fun h => absurd (congrArg some h) hslash⟩
      rw [(read_cons hcopies).1, List.head?_cons, List.head?_cons]

/-- Taking comments out makes no new one: what comes behind a slash that is copied is copied
too, or else a comment to the end of the line. -/
theorem copies_strip (hline : '\n' ∉ cs) (h : Mode.copies .code c cs = true) :
    Mode.copies .code c (strip .code cs) = true := by
  rw [copies_code_iff] at h ⊢
  refine ⟨h.1, fun hc => ?_⟩
  obtain ⟨hslash, hstar⟩ := h.2 hc
  rcases head?_strip hline hslash with hnone | hsame
  · simp [hnone]
  · rw [hsame]
    exact ⟨hslash, hstar⟩

/-- A text without its comments is read outside comments from start to end, and it ends in a
string exactly if the text does. -/
structure Rereads (mode : Mode) (cs : List Char) : Prop where
  uncommented : Uncommented mode.resumed (strip mode cs)
  isString_endMode : (endMode mode.resumed (strip mode cs)).isString = (endMode mode cs).isString

/-- A character that is copied is read again in the mode in which it was read. -/
theorem Rereads.cons (h : Rereads (mode.next c) cs) (hcopies : mode.copies c cs = true)
    (hagain : mode.copies c (strip (mode.next c) cs) = true) : Rereads mode (c :: cs) := by
  have htext := isText_of_copies hcopies
  obtain ⟨huncommented, hend⟩ := h
  rw [resumed_of_isText (isText_next htext)] at huncommented hend
  constructor
  · rw [resumed_of_isText htext, (read_cons hcopies).1]
    exact uncommented_cons.mpr ⟨hagain, huncommented⟩
  · rw [resumed_of_isText htext, (read_cons hcopies).1, endMode_cons hagain,
      endMode_cons hcopies, hend]

/-- What is not copied leaves no trace but the mode behind it. -/
theorem Rereads.comment {text : List Char} {mode' : Mode} (h : Rereads mode' cs)
    (hmode : mode.resumed = mode'.resumed) (hstrip : strip mode text = strip mode' cs)
    (hend : endMode mode text = endMode mode' cs) : Rereads mode text := by
  constructor
  · rw [hmode, hstrip]
    exact h.uncommented
  · rw [hmode, hstrip, hend]
    exact h.isString_endMode

/-- Reading goes on behind a comment as in the code around it, so that what is copied before and
behind it is read again as if the comment were not there. -/
theorem rereads (mode : Mode) (hline : '\n' ∉ cs) : Rereads mode cs := by
  induction mode, cs using strip.induct with
  | case1 mode => refine ⟨uncommented_nil ?_, ?_⟩ <;> cases mode <;> rfl
  | case2 cs ih =>
    refine (ih (by simpa using hline)).comment rfl (by rw [strip]) ?_
    rw [endMode, modes, List.getLastD_cons, getLastD_modes]
  | case3 cs ih | case4 cs ih | case9 cs ih =>
    refine (ih (by simpa using hline)).comment rfl (by rw [strip]) ?_
    rw [endMode, modes, List.getLastD_cons, List.getLastD_cons, getLastD_modes]
  | case5 cs ih => exact Rereads.cons (ih (by simpa using hline)) rfl rfl
  | case6 c cs hhash hslash hstar hquote ih =>
    -- only a slash looks ahead, and it looks at what is left of the text behind it
    have hcs := List.not_mem_of_not_mem_cons hline
    have hnext := next_code_of_ne hquote
    have hcopies : Mode.copies .code c cs = true := by
      refine copies_code_iff.mpr ⟨hhash, fun hc => ⟨fun h => ?_, fun h => ?_⟩⟩
      · obtain ⟨comment, rfl⟩ := List.head?_eq_some_iff.mp h
        exact hslash comment hc rfl
      · obtain ⟨comment, rfl⟩ := List.head?_eq_some_iff.mp h
        exact hstar comment hc rfl
    refine Rereads.cons ?_ hcopies ?_
    · rw [hnext]
      exact ih hcs
    · rw [hnext]
      exact copies_strip hcs hcopies
  | case7 escaped c cs ih => exact Rereads.cons (ih (List.not_mem_of_not_mem_cons hline)) rfl rfl
  | case8 c cs ih =>
    have hc : (c == '\n') = false := beq_eq_false_iff_ne.mpr (List.ne_of_not_mem_cons hline).symm
    rw [hc, if_neg Bool.false_ne_true] at ih
    refine (ih (List.not_mem_of_not_mem_cons hline)).comment rfl ?_ ?_
    · rw [strip, hc, if_neg Bool.false_ne_true]
    · rw [endMode, modes, hc, if_neg Bool.false_ne_true, List.getLastD_cons, getLastD_modes]
  | case10 c cs hends ih =>
    refine (ih (List.not_mem_of_not_mem_cons hline)).comment rfl ?_ ?_
    · rw [strip]
      exact hends
    · rw [endMode, modes, List.getLastD_cons, getLastD_modes]
      exact hends

/-! ## The blanks around it -/

theorem copies_of_append {more : List Char} (h : mode.copies c (cs ++ more) = true) :
    mode.copies c cs = true := by
  cases mode with
  | string => rfl
  | lineComment | blockComment => cases h
  | code =>
    cases cs with
    | nil => exact copies_code_iff.mpr ⟨(copies_code_iff.mp h).1, by simp⟩
    | cons d cs => exact h

theorem uncommented_append {text more : List Char} (htext : mode.isText = true)
    (h : Uncommented mode (text ++ more)) :
    Uncommented mode text ∧ Uncommented (text.foldl Mode.next mode) more := by
  induction text generalizing mode with
  | nil => exact ⟨uncommented_nil htext, h⟩
  | cons c text ih =>
    obtain ⟨hcopies, hrest⟩ := uncommented_cons.mp h
    obtain ⟨hbefore, hbehind⟩ := ih (isText_next htext) hrest
    exact ⟨uncommented_cons.mpr ⟨copies_of_append hcopies, hbefore⟩, hbehind⟩

theorem endMode_of_uncommented (h : Uncommented mode cs) :
    endMode mode cs = cs.foldl Mode.next mode := by
  induction cs generalizing mode with
  | nil => rw [endMode, modes]; rfl
  | cons c cs ih =>
    obtain ⟨hcopies, hrest⟩ := uncommented_cons.mp h
    rw [endMode_cons hcopies, ih hrest, List.foldl_cons]

theorem foldl_next_code (h : '"' ∉ cs) : cs.foldl Mode.next .code = .code := by
  induction cs with
  | nil => rfl
  | cons c cs ih =>
    rw [List.mem_cons, not_or] at h
    rw [List.foldl_cons, next_code_of_ne (Ne.symm h.1), ih h.2]

theorem isString_foldl_next (h : '"' ∉ cs) :
    (cs.foldl Mode.next mode).isString = mode.isString := by
  induction cs generalizing mode with
  | nil => rfl
  | cons c cs ih =>
    rw [List.mem_cons, not_or] at h
    rw [List.foldl_cons, ih h.2]
    cases mode <;> simp [Mode.next, Mode.isString, Ne.symm h.1]

/-- **A cleaned line holds no comment**, and it ends in a string exactly if the line does. -/
theorem reread_clean {line : String} (hline : '\n' ∉ line.toList) :
    Uncommented .code (clean line).toList ∧
      (endMode .code (clean line).toList).isString = (endMode .code line.toList).isString := by
  obtain ⟨huncommented, hend⟩ := rereads .code hline
  obtain ⟨front, back, heq, hfront, hback⟩ := Text.exists_trimChars (strip .code line.toList)
  have hclean : (clean line).toList = Text.trimChars (strip .code line.toList) :=
    String.toList_ofList
  rw [← hclean] at heq
  have hquote : Text.isBlank '"' = false := by decide
  have hstart : front.foldl Mode.next .code = .code :=
    foldl_next_code (not_mem_of_blank hfront hquote)
  have hall : Uncommented .code (front ++ (clean line).toList ++ back) := heq ▸ huncommented
  obtain ⟨hfirst, -⟩ := uncommented_append rfl hall
  obtain ⟨-, hinner⟩ := uncommented_append rfl hfirst
  rw [hstart] at hinner
  refine ⟨hinner, ?_⟩
  calc (endMode .code (clean line).toList).isString
      = ((clean line).toList.foldl Mode.next .code).isString := by
        rw [endMode_of_uncommented hinner]
    _ = ((front ++ (clean line).toList ++ back).foldl Mode.next .code).isString := by
        rw [List.foldl_append, isString_foldl_next (not_mem_of_blank hback hquote),
          List.foldl_append, hstart]
    _ = (endMode .code (strip .code line.toList)).isString := by
        rw [← endMode_of_uncommented hall, ← heq]
    _ = (endMode .code line.toList).isString := hend

end Reread

/-! ## Lines that are clean -/

/-- A line that cleaning finds nothing to do in: it is read outside comments from start to end, and
no blank stands at either end. -/
structure IsClean (line : String) : Prop where
  uncommented : Uncommented .code line.toList
  trimmed : Text.Trimmed line.toList

/-- Nothing is taken out of a text that is read outside comments. -/
theorem strip_of_uncommented {mode : Mode} {cs : List Char} (h : Uncommented mode cs) :
    strip mode cs = cs := by
  induction cs generalizing mode with
  | nil => rw [strip]
  | cons c cs ih =>
    obtain ⟨hcopies, hrest⟩ := uncommented_cons.mp h
    rw [(read_cons hcopies).1, ih hrest]

theorem IsClean.clean_eq {line : String} (h : IsClean line) : clean line = line := by
  rw [clean, strip_of_uncommented h.uncommented, Text.trimChars_eq_self_iff.mpr h.trimmed,
    String.ofList_toList]

theorem isClean_clean {line : String} (hline : '\n' ∉ line.toList) : IsClean (clean line) where
  uncommented := (reread_clean hline).1
  trimmed := by
    rw [clean, String.toList_ofList]
    exact Text.trimChars_eq_self_iff.mp (Text.trimChars_trimChars _)

/-- **Cleaning a line twice is cleaning it once.**  A cleaned line is read in code and in strings
only, and a line stays as it is exactly if it is clean: no comment is entered in it, and no blank
stands around it. -/
theorem clean_idempotent (line : String) (hline : '\n' ∉ line.toList) :
    clean (clean line) = clean line ∧
      (∀ mode ∈ modes .code (clean line).toList,
        mode = .code ∨ ∃ escaped, mode = .string escaped) ∧
      (clean line = line ↔ IsClean line) := by
  have hclean := isClean_clean hline
  refine ⟨hclean.clean_eq, fun mode hmode => ?_, fun heq => ?_, IsClean.clean_eq⟩
  · have htext := hclean.uncommented mode hmode
    cases mode with
    | code => exact Or.inl rfl
    | string escaped => exact Or.inr ⟨escaped, rfl⟩
    | lineComment | blockComment => cases htext
  · rw [← heq]
    exact hclean

/-- A comment between two slashes, which are apart without it, and an open string that ends in
blanks. -/
theorem clean_idempotent_slashes :
    let line := "  a / /* b */ / \"# c /*  "
    '\n' ∉ line.toList ∧ clean line = "a /  / \"# c /*" ∧
      (clean (clean line) = clean line ∧
        (∀ mode ∈ modes .code (clean line).toList,
          mode = .code ∨ ∃ escaped, mode = .string escaped) ∧
        (clean line = line ↔ IsClean line)) := by
  intro line
  have hline : '\n' ∉ line.toList := by decide
  exact ⟨hline, by decide +kernel, clean_idempotent line hline⟩

/-! ## The strings that dividing finds -/

/-- Behind a text, every quote outside strings opens one: no backslash escapes it. -/
def QuotesOpen (before text : List Char) : Prop :=
  Throughout (fun before c => c = '"' → inString before = false → isEscaped before = false)
    before text

/-- The mode that the marks of a divided text stand for. -/
def modeBehind (before : List Char) : Mode :=
  if inString before then .string (isEscaped before) else .code

theorem modeBehind_nil : modeBehind [] = .code := rfl

section Marks

variable {before : List Char} {c : Char} {cs : List Char}

theorem isString_modeBehind (before : List Char) :
    (modeBehind before).isString = inString before := by
  rw [modeBehind]
  cases inString before <;> rfl

/-- A character read in either way leads to the same mode, if it is no escaped quote in code. -/
theorem modeBehind_concat (h : c = '"' → inString before = false → isEscaped before = false) :
    modeBehind (before ++ [c]) = (modeBehind before).next c := by
  unfold modeBehind
  rw [inString_concat, isEscaped_concat]
  cases hin : inString before with
  | true => cases hquote : c == '"' && !isEscaped before <;> simp [Mode.next, hquote]
  | false =>
    by_cases hquote : c = '"'
    · subst hquote
      simp [Mode.next, escapesNext, h rfl hin]
    · simp [Mode.next, hquote]

theorem foldl_next_modeBehind (h : QuotesOpen before cs) :
    cs.foldl Mode.next (modeBehind before) = modeBehind (before ++ cs) := by
  induction cs generalizing before with
  | nil => rw [List.foldl_nil, List.append_nil]
  | cons c cs ih =>
    obtain ⟨hc, hcs⟩ := throughout_cons.mp h
    rw [List.foldl_cons, ← modeBehind_concat hc, ih hcs, List.append_assoc, List.singleton_append]

/-- An escaped quote in code opens a string for cleaning only. -/
theorem isString_next_escaped (hstring : inString before = false)
    (hescaped : isEscaped before = true) :
    ((modeBehind before).next '"').isString = true ∧ inString (before ++ ['"']) = false := by
  rw [modeBehind, inString_concat, hstring, hescaped]
  exact ⟨rfl, rfl⟩

/-- Both readings find the same strings, exactly if every quote in code opens one. -/
theorem map_isString_modes_iff (h : Uncommented (modeBehind before) cs) :
    (modes (modeBehind before) cs).map Mode.isString =
      cs.inits.map (fun text => inString (before ++ text)) ↔ QuotesOpen before cs := by
  induction cs generalizing before with
  | nil =>
    rw [modes]
    simp [isString_modeBehind, QuotesOpen, throughout_nil]
  | cons c cs ih =>
    obtain ⟨hcopies, hrest⟩ := uncommented_cons.mp h
    have hinits : (c :: cs).inits.map (fun text => inString (before ++ text)) =
        inString before :: cs.inits.map fun text => inString (before ++ [c] ++ text) := by
      simp [Function.comp_def]
    rw [(read_cons hcopies).2, hinits, List.map_cons, isString_modeBehind, List.cons.injEq,
      QuotesOpen, throughout_cons]
    -- up to the first escaped quote in code both readings go on in step; behind it they differ
    by_cases hstep : c = '"' → inString before = false → isEscaped before = false
    · rw [← modeBehind_concat hstep] at hrest ⊢
      exact (and_iff_right rfl).trans ((ih hrest).trans (and_iff_right hstep).symm)
    · obtain ⟨rfl, hstring, hescaped⟩ :
          c = '"' ∧ inString before = false ∧ isEscaped before = true := by
        simpa using hstep
      obtain ⟨hopens, hstays⟩ := isString_next_escaped hstring hescaped
      obtain ⟨behind, hbehind⟩ := exists_modes_eq_cons ((modeBehind before).next '"') cs
      have hhead : cs.inits.head? = some [] := by cases cs <;> rfl
      refine iff_of_false (fun heq => ?_) fun hquotes => hstep hquotes.1
      have hfirst := congrArg List.head? heq.2
      rw [hbehind, List.map_cons, List.head?_cons, List.head?_map, hhead, Option.map_some,
        List.append_nil, hopens, hstays] at hfirst
      cases hfirst

end Marks

/-- **Cleaning and dividing find the same strings in a cleaned line exactly if every quote outside
strings opens one**: before each of its characters and behind the last, the one stands in a string
if the other does.  Then its tokens and its statements fail exactly if cleaning ends in a string,
be it on the line or on the cleaned one. -/
theorem clean_strings_agree_iff (line : String) (hline : '\n' ∉ line.toList) :
    ((modes .code (clean line).toList).map Mode.isString =
        (clean line).toList.inits.map (fun text => (openString none false 1 text).isSome) ↔
      QuotesOpen [] (clean line).toList) ∧
    (QuotesOpen [] (clean line).toList →
      ((∃ e, tokens (clean line) = .error e) ↔
        (endMode .code (clean line).toList).isString = true) ∧
      ((∃ e, statements (clean line) = .error e) ↔
        (endMode .code (clean line).toList).isString = true)) ∧
    (endMode .code (clean line).toList).isString = (endMode .code line.toList).isString := by
  obtain ⟨huncommented, hend⟩ := reread_clean hline
  have hagree := @map_isString_modes_iff [] _ huncommented
  rw [modeBehind_nil] at hagree
  simp only [openString_eq, isSome_openColumn]
  refine ⟨hagree, fun hquotes => ?_, hend⟩
  have hmarks := foldl_next_modeBehind hquotes
  rw [modeBehind_nil, List.nil_append] at hmarks
  rw [endMode_of_uncommented huncommented, hmarks, isString_modeBehind, tokens, statements]
  exact ⟨exists_map_split_error_iff, exists_map_split_error_iff⟩

/-- An escaped quote inside a string, and a comment behind it. -/
theorem clean_strings_agree_iff_greeting :
    let line := "print \"\\\"#\"; end // bye"
    '\n' ∉ line.toList ∧ QuotesOpen [] (clean line).toList ∧
      (endMode .code line.toList).isString = false ∧ ¬ ∃ e, statements (clean line) = .error e := by
  have hline : '\n' ∉ "print \"\\\"#\"; end // bye".toList := by decide
  obtain ⟨hagree, hfails, hend⟩ := clean_strings_agree_iff _ hline
  have hquotes := hagree.mp (by decide +kernel)
  have hclosed : (endMode .code "print \"\\\"#\"; end // bye".toList).isString = false := by
    decide +kernel
  refine ⟨hline, hquotes, hclosed, ?_⟩
  rw [(hfails hquotes).2, hend, hclosed]
  exact Bool.false_ne_true

/-- An escaped quote outside strings: to cleaning the rest of the line is a string, so that the
comment stays, and to dividing it is code. -/
theorem clean_escaped_quote :
    let line := "print \\\"a # b"
    '\n' ∉ line.toList ∧ clean line = line ∧ (endMode .code line.toList).isString = true ∧
      tokens line = .ok ["print", "\\\"a", "#", "b"] ∧ statements line = .ok [line] ∧
      (modes .code line.toList).map Mode.isString ≠
        line.toList.inits.map fun text => (openString none false 1 text).isSome := by
  decide +kernel

end Mlog.Line
