import Mlog.Proofs.Compile.Alias
import Mlog.Proofs.Reference.Delimit

/-!
# Scopes that get their names later

The name of a scope may refer to the variable of a loop around it, and a variable gets the name in
front before the loop gives it a value.  The references of the name are delimited for that, so what
is put behind the name does not lengthen them.  It makes no difference then when the value is put
in: into the variable with its scopes, or into the variable and the scopes before they come together
(`delimit_then_bind`).
-/
set_option autoImplicit false

namespace Mlog

/-! ## Closed texts in a row -/

/-- Closed texts with something between them are filled one by one. -/
theorem Reference.fillChars_intercalate {sep : List Char} (hsep : '$' ∉ sep)
    {parts : List (List Char)} (h : ∀ part ∈ parts, Closed part)
    (value : String → Option String) (b : List Char) :
    fillChars value (sep.intercalate parts ++ b) =
      sep.intercalate (parts.map (fillChars value)) ++ fillChars value b := by
  induction parts with
  | nil => rfl
  | cons part parts ih =>
    obtain ⟨hpart, hparts⟩ := List.forall_mem_cons.mp h
    cases parts with
    | nil => simpa using hpart.fillChars_append value b
    | cons next parts =>
      rw [List.map_cons, List.map_cons, List.intercalate_cons_cons, List.intercalate_cons_cons,
        ← List.map_cons, List.append_assoc, List.append_assoc, hpart.fillChars_append,
        fillChars_append_of_not_mem hsep, ih hparts, List.append_assoc, List.append_assoc]

/-! ## Other names for scopes -/

/-- A block with another name, if it is a scope. -/
def Block.mapScope (f : String → String) : Block → Block
  | scope name openedAt => scope (f name) openedAt
  | b => b

namespace BlockStack

open Reference (Closed Complete delimit)
open Compile (takesScope)

/-- The open blocks with other names for the scopes. -/
def mapScopes (f : String → String) (stack : BlockStack) : BlockStack :=
  stack.map (Block.mapScope f)

theorem scopes_mapScopes (f : String → String) (stack : BlockStack) :
    (stack.mapScopes f).scopes = stack.scopes.map f := by
  have hname : ∀ b : Block, (b.mapScope f).scopeName? = b.scopeName?.map f := by
    intro b
    cases b <;> rfl
  simp only [scopes, mapScopes, List.filterMap_map, List.map_reverse, List.map_filterMap,
    Function.comp_def, hname]

/-! ## Names before and after -/

section Late

variable {stack : BlockStack} {x name value : String}

/-- What takes scopes does not begin with a reference, so it takes them with a value put in too. -/
theorem takesScope_bind (h : takesScope x = true) :
    takesScope (Reference.bind name value x) = true := by
  unfold takesScope at h ⊢
  rw [Reference.bind, Reference.toList_fill]
  cases hx : x.toList with
  | nil => rfl
  | cons c cs =>
    rw [hx] at h
    have hc : c ≠ '$' := by
      rintro rfl
      simp at h
    rw [Reference.fillChars_cons hc]
    exact h

/-- The name of a scope with a value put in has no reference that it could share with what comes
behind it. -/
theorem closed_bind_delimit {scope : String} (h : Complete scope) (hvalue : '$' ∉ value.toList) :
    Closed (Reference.bind name value (delimit scope)).toList := by
  rw [Reference.bind, Reference.toList_fill]
  refine (Reference.closed_delimit h).fillChars fun n text htext => ?_
  obtain ⟨-, heq⟩ := Option.ite_none_right_eq_some.mp htext
  rwa [← Option.some.inj heq]

/-- So delimiting it once more changes nothing. -/
theorem delimit_bind_delimit {scope : String} (h : Complete scope) (hvalue : '$' ∉ value.toList) :
    delimit (Reference.bind name value (delimit scope)) =
      Reference.bind name value (delimit scope) := by
  apply String.toList_injective
  rw [Reference.toList_delimit, (closed_bind_delimit h hvalue).fillChars_delimited_eq]

theorem toList_qualify (hx : takesScope x = true) (hs : stack.scopes ≠ []) :
    (stack.qualify x).toList =
      '_' :: (['_'].intercalate (stack.scopes.map fun scope => (delimit scope).toList) ++
        '_' :: x.toList) := by
  rw [qualify_of_takesScope hx hs]
  simp [scopesText, String.toList_intercalate, Function.comp_def]

/-- The names of the scopes in front of a variable get a value where they stand, each on its own. -/
theorem bind_qualify_of_scopes (hs : stack.scopes ≠ []) (hx : takesScope x = true)
    (hcomplete : ∀ scope ∈ stack.scopes, Complete scope) (hvalue : '$' ∉ value.toList) :
    Reference.bind name value (stack.qualify x) =
      (stack.mapScopes fun scope => Reference.bind name value (delimit scope)).qualify
        (Reference.bind name value x) := by
  -- the lookup of the one name, shared by the two sides
  let lookup : String → Option String := fun n => if n = name then some value else none
  have hlookup : ∀ text, (Reference.bind name value text).toList =
      Reference.fillChars lookup text.toList := Reference.toList_fill lookup
  have hscopes := scopes_mapScopes (fun scope => Reference.bind name value (delimit scope)) stack
  have hclosed : ∀ part ∈ stack.scopes.map fun scope => (delimit scope).toList,
      Reference.Closed part := by
    intro part hpart
    obtain ⟨scope, hscope, rfl⟩ := List.mem_map.mp hpart
    exact Reference.closed_delimit (hcomplete scope hscope)
  have hparts : (stack.scopes.map fun scope => Reference.bind name value (delimit scope)).map
      (fun scope => (delimit scope).toList) =
      (stack.scopes.map fun scope => (delimit scope).toList).map
        (Reference.fillChars lookup) := by
    rw [List.map_map, List.map_map]
    refine List.map_congr_left fun scope hscope => ?_
    rw [Function.comp_apply, Function.comp_apply,
      delimit_bind_delimit (hcomplete scope hscope) hvalue, hlookup]
  apply String.toList_injective
  rw [toList_qualify (takesScope_bind hx) (by simpa [hscopes] using hs), hscopes, hparts,
    hlookup, hlookup, toList_qualify hx hs, Reference.fillChars_cons (by decide),
    Reference.fillChars_intercalate (by decide) hclosed, Reference.fillChars_cons (by decide)]

end Late

/-- **Delimiting makes it safe to put names together before their values are known.**  Delimiting a
text again changes nothing.  And if every `$` in the names of the scopes begins a reference, a
variable gets the same name whether a value is put in after the scopes were put in front of it, or
into the variable and into the delimited name of every scope before. -/
theorem delimit_then_bind :
    (∀ text : String, delimit (delimit text) = delimit text) ∧
    ∀ (stack : BlockStack) (x name value : String), takesScope x = true →
      (∀ scope ∈ stack.scopes, Complete scope) → '$' ∉ value.toList →
      Reference.bind name value (stack.qualify x) =
        (stack.mapScopes fun scope => Reference.bind name value (delimit scope)).qualify
          (Reference.bind name value x) := by
  refine ⟨Reference.delimit_delimit, fun stack x name value hx hcomplete hvalue => ?_⟩
  by_cases hs : stack.scopes = []
  · have hscopes := scopes_mapScopes (fun scope => Reference.bind name value (delimit scope)) stack
    rw [hs, List.map_nil] at hscopes
    simp [qualify, hs, hscopes]
  · exact bind_qualify_of_scopes hs hx hcomplete hvalue

/-- The variable `x$i` in two scopes, one of which also refers to the variable of another loop. -/
theorem delimit_then_bind_two_loops :
    let stack : BlockStack :=
      [.scope "n$i" ⟨"main.mlogx", 2⟩, .scope "a$(j)$i" ⟨"main.mlogx", 1⟩]
    stack.scopes = ["a$(j)$i", "n$i"] ∧ takesScope "x$i" = true ∧
      (∀ scope ∈ stack.scopes, Complete scope) ∧ '$' ∉ "3".toList ∧
      Reference.bind "i" "3" (stack.qualify "x$i") = "_a$(j)3_n3_x3" ∧
      Reference.bind "i" "3" (stack.qualify "x$i") =
        (stack.mapScopes fun scope => Reference.bind "i" "3" (delimit scope)).qualify
          (Reference.bind "i" "3" "x$i") := by
  intro stack
  have htakes : takesScope "x$i" = true := by decide
  have hcomplete : ∀ scope ∈ stack.scopes, Complete scope := by decide
  have hvalue : '$' ∉ "3".toList := by decide
  exact ⟨by decide, htakes, hcomplete, hvalue, by decide +kernel,
    delimit_then_bind.2 stack "x$i" "i" "3" htakes hcomplete hvalue⟩

/-- A `$` at the end of a scope would become a reference to what is put behind it. -/
example :
    let stack : BlockStack := [.scope "a$" ⟨"main.mlogx", 1⟩]
    Reference.bind "_x" "3" (stack.qualify "x") = "_a3" ∧
      (stack.mapScopes fun scope => Reference.bind "_x" "3" (delimit scope)).qualify
        (Reference.bind "_x" "3" "x") = "_a$_x" := by
  decide +kernel

end BlockStack

end Mlog
