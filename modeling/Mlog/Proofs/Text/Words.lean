import Mlog.Text.Blank

/-!
# The words of a text

A text is cut at each separator, so the pieces of two texts with a separator between them are the
pieces of both (`splitOnP_append`).  The words of a text are its pieces between blanks, without the
empty ones.  They can be written again with one space between them, and nothing around them: the
words of that text are the same (`words_intercalate`).
-/
set_option autoImplicit false

namespace Mlog.Text

/-! ## Pieces -/

section Pieces

variable {sep : Char → Bool} {cs : List Char}

theorem splitOnP_ne_nil (sep : Char → Bool) (cs : List Char) : splitOnP sep cs ≠ [] := by
  cases cs with
  | nil => simp [splitOnP]
  | cons c cs =>
    rw [splitOnP]
    split
    · simp
    · split <;> simp

/-- A text without separators is one piece. -/
theorem splitOnP_eq_singleton (h : ∀ c ∈ cs, sep c = false) : splitOnP sep cs = [cs] := by
  induction cs with
  | nil => rfl
  | cons c cs ih =>
    obtain ⟨hc, hcs⟩ := List.forall_mem_cons.mp h
    simp [splitOnP, hc, ih hcs]

theorem splitOnP_append {c : Char} (hc : sep c = true) (a b : List Char) :
    splitOnP sep (a ++ c :: b) = splitOnP sep a ++ splitOnP sep b := by
  induction a with
  | nil => simp [splitOnP, hc]
  | cons d a ih =>
    rw [List.cons_append, splitOnP, splitOnP, ih]
    split
    · rfl
    · cases h : splitOnP sep a with
      | nil => exact absurd h (splitOnP_ne_nil sep a)
      | cons piece rest => rfl

theorem not_sep_of_mem_splitOnP {piece : List Char} (h : piece ∈ splitOnP sep cs) :
    ∀ c ∈ piece, sep c = false := by
  induction cs generalizing piece with
  | nil =>
    obtain rfl : piece = [] := by simpa [splitOnP] using h
    exact List.forall_mem_nil _
  | cons d cs ih =>
    rw [splitOnP] at h
    split at h
    · rcases List.mem_cons.mp h with rfl | h
      · exact List.forall_mem_nil _
      · exact ih h
    · next hd =>
      cases hcs : splitOnP sep cs with
      | nil => exact absurd hcs (splitOnP_ne_nil sep cs)
      | cons first rest =>
        rw [hcs] at h ih
        rcases List.mem_cons.mp h with rfl | h
        · exact List.forall_mem_cons.mpr ⟨by simpa using hd, ih List.mem_cons_self⟩
        · exact ih (List.mem_cons_of_mem _ h)

end Pieces

/-! ## Words -/

/-- A text that is one word: it is not empty, and no blank breaks it. -/
def SingleWord (text : String) : Prop := text ≠ "" ∧ ∀ c ∈ text.toList, isBlank c = false

theorem singleWord_of_mem_words {text word : String} (h : word ∈ words text) : SingleWord word := by
  obtain ⟨piece, hpiece, rfl⟩ := List.mem_map.mp h
  obtain ⟨hmem, hne⟩ := List.mem_filter.mp hpiece
  refine ⟨by simpa using hne, ?_⟩
  rw [String.toList_ofList]
  exact not_sep_of_mem_splitOnP hmem

/-- **Words with single spaces between them** are the words of that text. -/
theorem words_intercalate {ws : List String} (h : ∀ word ∈ ws, SingleWord word) :
    words (" ".intercalate ws) = ws := by
  have hone : ∀ word, SingleWord word → splitOnP isBlank word.toList = [word.toList] ∧
      word.toList.isEmpty = false := by
    intro word hword
    exact ⟨splitOnP_eq_singleton hword.2, by simpa using hword.1⟩
  have hspace : " ".toList = [' '] := rfl
  unfold words
  rw [String.toList_intercalate, hspace]
  induction ws with
  | nil => rfl
  | cons word ws ih =>
    obtain ⟨hword, hws⟩ := List.forall_mem_cons.mp h
    obtain ⟨hpiece, hne⟩ := hone word hword
    cases ws with
    | nil => simp [hpiece, hne]
    | cons next ws =>
      rw [List.map_cons, List.map_cons, List.intercalate_cons_cons, ← List.map_cons,
        List.append_assoc, List.singleton_append, splitOnP_append (by decide), hpiece,
        List.singleton_append, List.filter_cons_of_pos (by simp [hne]), List.map_cons, ih hws,
        String.ofList_toList]

end Mlog.Text
