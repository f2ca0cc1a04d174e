import Mlog.Proofs.Compile.Scope

/-!
# When a variable gets the same name in different scopes

The names of the open scopes are joined by underscores in front of a variable.  A name may hold
underscores itself, so the joint text does not say where one scope ends and the next one begins.
What it does say is the list of words between the underscores (`splitOn_scopesText`), and two
stacks give a variable the same name exactly if they agree on these words or leave the variable
alone (`qualify_eq_qualify_iff`).
-/
set_option autoImplicit false

namespace Mlog.BlockStack

open Compile (takesScope)

/-- The text that the open scopes are in front of a variable, without the outer underscores. -/
def scopesText (stack : BlockStack) : String :=
  "_".intercalate (stack.scopes.map Reference.delimit)

/-- The names of the open scopes, outermost first, each cut at its underscores. -/
def scopeWords (stack : BlockStack) : List (List Char) :=
  stack.scopes.flatMap fun name => name.toList.splitOn '_'

/-- No scope waits for a loop to give it its name. -/
def PlainScopes (stack : BlockStack) : Prop := ∀ name ∈ stack.scopes, '$' ∉ name.toList

instance (stack : BlockStack) : Decidable stack.PlainScopes :=
  inferInstanceAs (Decidable (∀ name ∈ stack.scopes, '$' ∉ name.toList))

/-! ## Names that take scopes, and names that do not -/

theorem qualify_of_not_takesScope {name : String} (h : takesScope name = false)
    (stack : BlockStack) : stack.qualify name = name := by
  unfold takesScope at h
  unfold qualify
  by_cases hu : name.toList.head? = some '_'
  · simp [hu]
  · by_cases hd : name.toList.head? = some '$'
    · simp [hd]
    · simp [hu, hd] at h

theorem qualify_of_takesScope {name : String} (h : takesScope name = true) {stack : BlockStack}
    (hs : stack.scopes ≠ []) :
    stack.qualify name = "_" ++ stack.scopesText ++ "_" ++ name := by
  unfold takesScope at h
  unfold qualify scopesText
  simp only [Bool.and_eq_true, bne_iff_ne, ne_eq] at h
  simp [hs, h.1, h.2]

/-! ## The words between the underscores -/

theorem splitOn_append_underscore (xs ys : List Char) :
    (xs ++ '_' :: ys).splitOn '_' = xs.splitOn '_' ++ ys.splitOn '_' := by
  exact List.splitOnP_append_cons xs ys (by decide)

/-- A joint text has the words of its parts. -/
theorem splitOn_intercalate_underscore {parts : List (List Char)} (h : parts ≠ []) :
    (['_'].intercalate parts).splitOn '_' = parts.flatMap (List.splitOn '_') := by
  induction parts with
  | nil => exact absurd rfl h
  | cons first rest ih =>
    cases rest with
    | nil => simp
    | cons second rest =>
      rw [List.intercalate_cons_cons, List.append_assoc, List.singleton_append,
        splitOn_append_underscore, ih (List.cons_ne_nil _ _)]
      exact List.flatMap_cons.symm

theorem splitOn_scopesText {stack : BlockStack} (hs : stack.scopes ≠ [])
    (hplain : stack.PlainScopes) : stack.scopesText.toList.splitOn '_' = stack.scopeWords := by
  have hnames : (stack.scopes.map Reference.delimit).map String.toList =
      stack.scopes.map String.toList := by
    rw [List.map_map]
    apply List.map_congr_left
    intro name hname
    show (Reference.delimit name).toList = name.toList
    rw [Reference.delimit, Reference.toList_fill,
      Reference.fillChars_of_not_mem (hplain name hname)]
  have hunderscore : "_".toList = ['_'] := rfl
  rw [scopesText, String.toList_intercalate, hnames, hunderscore,
    splitOn_intercalate_underscore (by simpa using hs), scopeWords, List.flatMap_map]

theorem scopesText_eq_iff {s t : BlockStack} (hs : s.scopes ≠ []) (ht : t.scopes ≠ [])
    (hsp : s.PlainScopes) (htp : t.PlainScopes) :
    s.scopesText = t.scopesText ↔ s.scopeWords = t.scopeWords := by
  rw [← splitOn_scopesText hs hsp, ← splitOn_scopesText ht htp]
  constructor
  · intro h
    rw [h]
  · intro h
    -- joined again, the words are the text
    apply String.toList_injective
    calc s.scopesText.toList = ['_'].intercalate (s.scopesText.toList.splitOn '_') :=
          (List.intercalate_splitOn '_').symm
      _ = ['_'].intercalate (t.scopesText.toList.splitOn '_') := by rw [h]
      _ = t.scopesText.toList := List.intercalate_splitOn '_'

/-- Scopes whose names hold no underscore are their own words. -/
theorem scopeWords_of_no_underscore {stack : BlockStack}
    (h : ∀ name ∈ stack.scopes, '_' ∉ name.toList) :
    stack.scopeWords = stack.scopes.map String.toList := by
  have hone : ∀ name ∈ stack.scopes, name.toList.splitOn '_' = [name.toList] := by
    intro name hname
    apply List.splitOnP_eq_singleton
    intro c hc
    have hne : c ≠ '_' := by
      rintro rfl
      exact h name hname hc
    simpa using hne
  rw [scopeWords, List.flatMap_def, List.map_congr_left hone, ← List.flatMap_def,
    List.map_eq_flatMap]

/-! ## Variables of the same name -/

/-- **Two stacks give a variable the same name** exactly if they agree on the words of their
scopes, or the variable takes no scopes. -/
theorem qualify_eq_qualify_iff {s t : BlockStack} (hs : s.scopes ≠ []) (ht : t.scopes ≠ [])
    (hsp : s.PlainScopes) (htp : t.PlainScopes) (name : String) :
    s.qualify name = t.qualify name ↔
      takesScope name = false ∨ s.scopeWords = t.scopeWords := by
  cases htakes : takesScope name with
  | false => simp [qualify_of_not_takesScope htakes]
  | true =>
    rw [qualify_of_takesScope htakes hs, qualify_of_takesScope htakes ht,
      ← scopesText_eq_iff hs ht hsp htp]
    simp [← String.toList_inj]

/-- **Different scopes keep variables apart.**  A name that begins with `_` or `$` has its scopes
already or waits for its value, and is left alone.  Every other name differs between two stacks
whose scopes differ in their words, as different scopes without underscores do. -/
theorem qualify_ne_qualify {s t : BlockStack} (hs : s.scopes ≠ []) (ht : t.scopes ≠ [])
    (hsp : s.PlainScopes) (htp : t.PlainScopes) (name : String) :
    (takesScope name = false → s.qualify name = name ∧ t.qualify name = name) ∧
    (takesScope name = true → s.scopeWords ≠ t.scopeWords → s.qualify name ≠ t.qualify name) ∧
    ((∀ scope ∈ s.scopes ++ t.scopes, '_' ∉ scope.toList) → s.scopes ≠ t.scopes →
      s.scopeWords ≠ t.scopeWords) := by
  refine ⟨?_, ?_, ?_⟩
  · intro hleft
    exact ⟨qualify_of_not_takesScope hleft s, qualify_of_not_takesScope hleft t⟩
  · intro htakes hwords heq
    rcases (qualify_eq_qualify_iff hs ht hsp htp name).mp heq with hleft | hsame
    · rw [htakes] at hleft
      cases hleft
    · exact hwords hsame
  · intro hnone hne hwords
    obtain ⟨hnone₁, hnone₂⟩ := List.forall_mem_append.mp hnone
    rw [scopeWords_of_no_underscore hnone₁, scopeWords_of_no_underscore hnone₂] at hwords
    exact hne ((List.map_inj_right fun _ _ => String.toList_inj.mp).mp hwords)

/-- The scopes `a` and `b` inside each other, either way round. -/
theorem qualify_ne_qualify_swapped :
    let s : BlockStack := [.scope "b" ⟨"main.mlogx", 2⟩, .scope "a" ⟨"main.mlogx", 1⟩]
    let t : BlockStack := [.scope "a" ⟨"main.mlogx", 2⟩, .scope "b" ⟨"main.mlogx", 1⟩]
    s.scopes = ["a", "b"] ∧ t.scopes = ["b", "a"] ∧ takesScope "x" = true ∧
      s.qualify "x" ≠ t.qualify "x" := by
  intro s t
  obtain ⟨-, hapart, hwords⟩ := qualify_ne_qualify (s := s) (t := t) (by decide) (by decide)
    (by decide) (by decide) "x"
  exact ⟨by decide, by decide, by decide, hapart (by decide) (hwords (by decide) (by decide))⟩

/-- The scope `a_b` gives a variable the name that it has in `b` inside `a`, and no scope changes
the name `_x`. -/
theorem qualify_underscores_alias :
    let s : BlockStack := [.scope "b" ⟨"main.mlogx", 2⟩, .scope "a" ⟨"main.mlogx", 1⟩]
    let t : BlockStack := [.scope "a_b" ⟨"main.mlogx", 1⟩]
    s.scopes ≠ [] ∧ t.scopes ≠ [] ∧ s.scopes ≠ t.scopes ∧ s.PlainScopes ∧ t.PlainScopes ∧
      s.qualify "x" = t.qualify "x" ∧ s.qualify "_x" = t.qualify "_x" := by
  decide +kernel

end Mlog.BlockStack
