import Mlog.Text.Word

/-!
# References

`$name` and `$(name)` stand for a value that is put in their place: a compiler constant before a
statement is read, or the value of a loop variable when its loop is unrolled.  The bare form takes
the longest name it can; the delimited form says where its name ends, and may hold dots and
hyphens.

A text is read once, from left to right, into pieces.  Everything that is not a complete reference
is plain, including a `$` with no name after it, and a value that is put in is not read again.
Reading loses nothing: the pieces put together are the text (`flatMap_source_scan`).
-/
set_option autoImplicit false

namespace Mlog

/-- A part of a text: one plain character, or one reference as it was written. -/
inductive Piece where
  | char (c : Char)
  | bare (name : List Char)
  | delimited (name : List Char)
  deriving DecidableEq, Repr

namespace Piece

/-- The text a piece was read from. -/
def source : Piece → List Char
  | char c => [c]
  | bare name => '$' :: name
  | delimited name => '$' :: '(' :: (name ++ [')'])

theorem length_source_pos (p : Piece) : 0 < p.source.length := by cases p <;> simp [source]

/-- The name a piece refers to. -/
def name? : Piece → Option String
  | char _ => none
  | bare name | delimited name => some (String.ofList name)

/-- The text of a piece when `value` gives the values of names; a name without one stays as it was
written. -/
def fill (value : String → Option String) (p : Piece) : List Char :=
  match p.name?.bind value with
  | some text => text.toList
  | none => p.source

end Piece

namespace Reference

/-- Whether a character can stand in a delimited reference. -/
def isDelimitedChar (c : Char) : Bool := Text.isWord c || c == '.' || c == '-'

/-- The reference whose `$` stands right before the text. -/
def atDollar? : List Char → Option Piece
  | [] => none
  | c :: cs =>
    if c == '(' then
      let name := cs.takeWhile isDelimitedChar
      if !name.isEmpty && (cs.dropWhile isDelimitedChar).head? == some ')' then
        some (.delimited name)
      else none
    else if Text.isNameStart c then some (.bare (c :: cs.takeWhile Text.isWord))
    else none

/-- The pieces of a text.  `skip` counts the characters that belong to a reference already read. -/
def scan : (skip : Nat) → List Char → List Piece
  | _, [] => []
  | skip + 1, _ :: cs => scan skip cs
  | 0, c :: cs =>
    if c == '$' then
      match atDollar? cs with
      | some piece => piece :: scan (piece.source.length - 1) cs
      | none => .char c :: scan 0 cs
    else .char c :: scan 0 cs

/-- A reference is read from the text right behind its `$`. -/
theorem source_atDollar? {cs : List Char} {p : Piece} (h : atDollar? cs = some p) :
    ∃ rest, '$' :: cs = p.source ++ rest := by
  cases cs with
  | nil => simp [atDollar?] at h
  | cons c cs =>
    simp only [atDollar?] at h
    split at h
    · next hc =>
      rw [beq_iff_eq] at hc
      subst hc
      split at h
      · next hn =>
        obtain rfl := Option.some.inj h
        simp only [Bool.and_eq_true, beq_iff_eq] at hn
        obtain ⟨rest, hrest⟩ := List.head?_eq_some_iff.1 hn.2
        have hcs := List.takeWhile_append_dropWhile (p := isDelimitedChar) (l := cs)
        exact ⟨rest, by simp [Piece.source, ← hrest, hcs]⟩
      · cases h
    · split at h
      · obtain rfl := Option.some.inj h
        exact ⟨cs.dropWhile Text.isWord, by
          simp [Piece.source, List.takeWhile_append_dropWhile]⟩
      · cases h

/-- To skip characters is to begin behind them. -/
theorem scan_drop (n : Nat) (cs : List Char) : scan n cs = scan 0 (cs.drop n) := by
  induction n generalizing cs with
  | zero => rfl
  | succ n ih =>
    cases cs with
    | nil => simp [scan]
    | cons c cs => simpa [scan] using ih cs

/-- Nothing is lost: the pieces of a text are the text. -/
theorem flatMap_source_scan (cs : List Char) : (scan 0 cs).flatMap Piece.source = cs := by
  induction h : cs.length using Nat.strongRecOn generalizing cs with
  | ind n ih =>
    cases cs with
    | nil => rfl
    | cons c cs =>
      subst h
      unfold scan
      split
      · next hc =>
        simp only [beq_iff_eq] at hc
        subst hc
        split
        · next p hp =>
          obtain ⟨rest, hrest⟩ := source_atDollar? hp
          have hpos := p.length_source_pos
          have hlen := congrArg List.length hrest
          simp only [List.length_cons, List.length_append] at hlen
          rw [scan_drop]
          have hdrop : cs.drop (p.source.length - 1) = rest := by
            have htail := congrArg (List.drop p.source.length) hrest
            rw [List.drop_left, ← Nat.sub_add_cancel hpos, List.drop_succ_cons] at htail
            exact htail
          rw [hdrop, List.flatMap_cons, ih rest.length (by simp; omega) rest rfl, ← hrest]
        · simp [Piece.source, ih cs.length (by simp) cs rfl]
      · simp [Piece.source, ih cs.length (by simp) cs rfl]

/-- The text with every name that `value` knows replaced by its value. -/
def fill (value : String → Option String) (text : String) : String :=
  String.ofList ((scan 0 text.toList).flatMap (Piece.fill value))

/-- The names a text refers to, in order of appearance. -/
def names (text : String) : List String := (scan 0 text.toList).filterMap Piece.name?

/-- The text with one name replaced by its value. -/
def bind (name value text : String) : String :=
  fill (fun n => if n = name then some value else none) text

/-- The text with every reference delimited, so that text put behind it cannot lengthen a name. -/
def delimit (text : String) : String :=
  fill (fun n => some ("$(" ++ n ++ ")")) text

/-- A text after its constants were put in, with the names that had no value. -/
structure Substituted where
  text : String
  /-- each once, in order of first appearance -/
  unresolved : List String
  deriving DecidableEq, Repr

/-- Puts the values of names into a text.  A name without a value is reported unless it is
`deferred`, that is, bound later. -/
def substitute (value : String → Option String) (deferred : List String) (text : String) :
    Substituted where
  text := fill value text
  unresolved :=
    ((names text).filter fun n => (value n).isNone && !deferred.contains n).eraseDups

end Reference

end Mlog
