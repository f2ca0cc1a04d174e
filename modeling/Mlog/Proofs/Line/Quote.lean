import Mlog.Line.Split

/-!
# Where strings begin and end

A quote counts unless it is escaped, that is, unless it stands behind an odd run of backslashes
(`isEscaped`).  The quotes that count open and close strings in turn, so a text ends inside a string
if their number is odd (`inString`).

Dividing a text keeps two marks on the way that stand for these: whether a string is open, and
whether the next character is escaped.  Here the marks are read off the text that was passed, and
each function is continued behind it (`openString_append`, `piecesFrom_cons`).
-/
set_option autoImplicit false

namespace Mlog.Line

/-- Whether a character behind the text is escaped: the text ends in an odd run of backslashes. -/
def isEscaped (text : List Char) : Bool :=
  (text.reverse.takeWhile (· == '\\')).length % 2 == 1

/-- The columns of the quotes that are not escaped, counted in characters from one. -/
def quoteColumns (text : List Char) : List Nat :=
  ((List.range text.length).filter fun i =>
    text[i]? == some '"' && !isEscaped (text.take i)).map (· + 1)

/-- Whether a string is open behind the text. -/
def inString (text : List Char) : Bool := (quoteColumns text).length % 2 == 1

/-- The column of the string that is open behind the text. -/
def openColumn (text : List Char) : Option Nat :=
  if inString text then (quoteColumns text).getLast? else none

/-! ## One character more -/

theorem isEscaped_concat (text : List Char) (c : Char) :
    isEscaped (text ++ [c]) = escapesNext (isEscaped text) c := by
  unfold isEscaped escapesNext
  rw [List.reverse_append, List.reverse_singleton, List.singleton_append, List.takeWhile_cons]
  cases c == '\\' with
  | false => rfl
  | true =>
    have hparity := Nat.mod_two_eq_zero_or_one (text.reverse.takeWhile (· == '\\')).length
    rcases hparity with h | h <;> simp [Nat.add_mod, h]

theorem quoteColumns_concat (text : List Char) (c : Char) :
    quoteColumns (text ++ [c]) =
      quoteColumns text ++ if c == '"' && !isEscaped text then [text.length + 1] else [] := by
  have hbefore : ∀ i ∈ List.range text.length,
      ((text ++ [c])[i]? == some '"' && !isEscaped ((text ++ [c]).take i)) =
        (text[i]? == some '"' && !isEscaped (text.take i)) := by
    intro i hi
    have hlt := List.mem_range.mp hi
    rw [List.getElem?_append_left hlt, List.take_append_of_le_length (Nat.le_of_lt hlt)]
  unfold quoteColumns
  rw [List.length_append, List.length_singleton, List.range_succ, List.filter_append,
    List.filter_congr hbefore, List.map_append]
  congr 1
  rw [List.filter_cons, List.filter_nil, List.getElem?_concat_length, List.take_left,
    Option.some_beq_some]
  split <;> rfl

/-- A quote that is not escaped opens or closes a string, and nothing else does. -/
theorem inString_concat (text : List Char) (c : Char) :
    inString (text ++ [c]) =
      if c == '"' && !isEscaped text then !inString text else inString text := by
  unfold inString
  rw [quoteColumns_concat]
  split
  · rw [List.length_append, List.length_singleton]
    rcases Nat.mod_two_eq_zero_or_one (quoteColumns text).length with h | h <;>
      simp [Nat.add_mod, h]
  · rw [List.append_nil]

theorem isSome_openColumn (text : List Char) : (openColumn text).isSome = inString text := by
  unfold openColumn
  cases h : inString text with
  | false => rfl
  | true =>
    cases hlast : (quoteColumns text).getLast? with
    | some column => rfl
    | none =>
      rw [inString, List.getLast?_eq_none_iff.mp hlast] at h
      cases h

theorem openColumn_concat (text : List Char) (c : Char) :
    openColumn (text ++ [c]) =
      if c == '"' && !isEscaped text then
        if (openColumn text).isSome then none else some (text.length + 1)
      else openColumn text := by
  rw [isSome_openColumn, openColumn, inString_concat, quoteColumns_concat]
  split
  · cases inString text <;> simp
  · rw [List.append_nil, openColumn]

/-! ## More text -/

/-- Behind a text, a condition on each character and on all that comes before it. -/
def Throughout (P : List Char → Char → Prop) (before text : List Char) : Prop :=
  ∀ a c b, text = a ++ c :: b → P (before ++ a) c

section Throughout

variable {P : List Char → Char → Prop} {before : List Char}

theorem throughout_nil : Throughout P before [] := by
  intro a c b h
  simp at h

theorem throughout_cons {c : Char} {text : List Char} :
    Throughout P before (c :: text) ↔ P before c ∧ Throughout P (before ++ [c]) text := by
  constructor
  · intro h
    refine ⟨by simpa using h [] c text rfl, fun a d b heq => ?_⟩
    simpa using h (c :: a) d b (by rw [heq, List.cons_append])
  · rintro ⟨hc, htext⟩ a d b heq
    cases a with
    | nil =>
      obtain ⟨rfl, -⟩ := List.cons.inj heq
      simpa using hc
    | cons e a =>
      obtain ⟨rfl, hrest⟩ := List.cons.inj heq
      simpa using htext a d b hrest

end Throughout

/-- What follows is read alike behind two texts that leave the same marks. -/
theorem marks_append {before before' : List Char} (hstring : inString before = inString before')
    (hescaped : isEscaped before = isEscaped before') (text : List Char) :
    inString (before ++ text) = inString (before' ++ text) ∧
      isEscaped (before ++ text) = isEscaped (before' ++ text) := by
  induction text generalizing before before' with
  | nil => simpa using ⟨hstring, hescaped⟩
  | cons c text ih =>
    rw [List.append_cons before, List.append_cons before']
    apply ih
    · rw [inString_concat, inString_concat, hstring, hescaped]
    · rw [isEscaped_concat, isEscaped_concat, hescaped]

/-- Behind a text that leaves no mark, what follows is read as it is by itself. -/
theorem inString_append {before : List Char} (hstring : inString before = false)
    (hescaped : isEscaped before = false) (text : List Char) :
    inString (before ++ text) = inString text :=
  (@marks_append before [] hstring hescaped text).1

theorem inString_append_of_not_mem (before : List Char) {text : List Char} (h : '"' ∉ text) :
    inString (before ++ text) = inString before := by
  induction text generalizing before with
  | nil => rw [List.append_nil]
  | cons c text ih =>
    rw [List.mem_cons, not_or] at h
    rw [List.append_cons, ih (before ++ [c]) h.2, inString_concat, if_neg (by simp [Ne.symm h.1])]

theorem isEscaped_of_not_mem {text : List Char} (h : '\\' ∉ text) : isEscaped text = false := by
  have hrun : text.reverse.takeWhile (· == '\\') = [] := by
    cases hrev : text.reverse with
    | nil => rfl
    | cons c cs =>
      have hc : c ≠ '\\' := by
        rintro rfl
        exact h (List.mem_reverse.mp (by simp [hrev]))
      simp [hc]
  rw [isEscaped, hrun]
  rfl

/-! ## Dividing behind a text -/

/-- Where a string is left open is told by the quotes that count. -/
theorem openString_append (before cs : List Char) :
    openString (openColumn before) (isEscaped before) (before.length + 1) cs =
      openColumn (before ++ cs) := by
  induction cs generalizing before with
  | nil => rw [List.append_nil, openString]
  | cons c cs ih =>
    have hstep := ih (before ++ [c])
    rw [List.length_append, List.length_singleton, openColumn_concat, isEscaped_concat,
      List.append_assoc, List.singleton_append] at hstep
    rw [openString, ← hstep]
    split
    · next hquote =>
      obtain ⟨hc, -⟩ := Bool.and_eq_true_iff.mp hquote
      obtain rfl : c = '"' := beq_iff_eq.mp hc
      rfl
    · rfl

theorem openString_eq (text : List Char) : openString none false 1 text = openColumn text :=
  openString_append [] text

/-- The pieces of a text behind another one, empty ones included. -/
def piecesFrom (sep : Char) (before text : List Char) : List (List Char) :=
  pieces sep (inString before) (isEscaped before) text

theorem piecesFrom_nil (sep : Char) (before : List Char) : piecesFrom sep before [] = [[]] := rfl

/-- A separator outside strings ends a piece, and any other character goes to the first one. -/
theorem piecesFrom_cons {sep : Char} (hsep : sep ≠ '"') (before : List Char) (c : Char)
    (cs : List Char) :
    piecesFrom sep before (c :: cs) =
      if c == sep && !inString before then [] :: piecesFrom sep (before ++ [c]) cs
      else consFirst c (piecesFrom sep (before ++ [c]) cs) := by
  unfold piecesFrom
  rw [pieces, inString_concat, isEscaped_concat]
  split
  · next hquote =>
    obtain ⟨hc, -⟩ := Bool.and_eq_true_iff.mp hquote
    obtain rfl : c = '"' := beq_iff_eq.mp hc
    rw [if_neg (by simp [hsep.symm])]
    rfl
  · split
    · next hdivides =>
      have hout : inString before = false := by simpa using (Bool.and_eq_true_iff.mp hdivides).2
      rw [hout]
    · rfl

end Mlog.Line
