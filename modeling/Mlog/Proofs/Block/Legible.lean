import Mlog.Proofs.Block.Copies
import Mlog.Proofs.Compile.Alias
import Mlog.Proofs.Line.Token

/-!
# What blocks put into statements

A scope puts its name in front of variables, and a loop puts its values in place of references.
Both come from the tokens of a header, or are numbers, so they are tokens themselves; a block for
which this holds is `Legible`, and open blocks stay so whatever happens to them.

A token with the names of scopes in front is a token (`isToken_qualify`).  The names are joined by
underscores, and an underscore ends an escape that a name may leave open.
-/
set_option autoImplicit false

namespace Mlog

open Line (IsToken Reads)

/-- What the block puts into statements is tokens: the name of a scope, or the values of a loop. -/
def Block.Legible : Block → Prop
  | scope name _ => IsToken name
  | loop _ elements _ _ => ∀ value ∈ elements, IsToken value
  | conditional .. => True

def BlockStack.Legible (stack : BlockStack) : Prop := ∀ b ∈ stack, b.Legible

theorem Block.legible_pass {b : Block} {statements : List Statement} (h : b.Legible) :
    (b.pass statements).1.Legible := by
  cases b with
  | scope => exact h
  | loop => exact h
  | conditional => exact h

theorem Block.isToken_of_mem_range {lower upper : Nat} {value : String}
    (h : value ∈ Block.range lower upper) : IsToken value := by
  obtain ⟨k, -, rfl⟩ := List.mem_map.mp h
  have hlist : (toString (lower + k)).toList = Nat.toDigits 10 (lower + k) := by
    rw [Nat.toString_eq_repr, Nat.toList_repr]
  apply Line.isToken_of_quiet
  · rw [hlist]
    exact Nat.toDigits_ne_nil
  · intro c hc
    rw [hlist] at hc
    have hdigit := Nat.isDigit_of_mem_toDigits (by decide) (by decide) hc
    refine ⟨?_, ?_, ?_⟩ <;>
      · rintro rfl
        exact absurd hdigit (by decide)

/-- A header of tokens opens a block that puts tokens into statements. -/
theorem Block.legible_of_ofHeader {kind : BlockKind} {header : List String} {location : Location}
    {block : Block} {warnings : List Diagnostic} (hheader : ∀ token ∈ header, IsToken token)
    (h : Block.ofHeader kind header location = .ok (block, warnings)) : block.Legible := by
  cases kind with
  | scope =>
    simp only [Block.ofHeader] at h
    split at h
    · next name hname =>
      obtain ⟨rfl, -⟩ := Prod.mk.inj (Except.ok.inj h)
      exact hheader name (List.mem_of_getElem? hname)
    · cases h
  | loop =>
    obtain ⟨⟨name, elements⟩, hparts, h⟩ := Except.bind_eq_ok_iff.mp h
    obtain ⟨rfl, -⟩ := Prod.mk.inj (Except.ok.inj h)
    show ∀ value ∈ elements, IsToken value
    unfold Block.loopParts at hparts
    split at hparts
    · next first name' mode rest =>
      split at hparts
      · split at hparts
        · next lower upper =>
          obtain ⟨values, hvalues, hparts⟩ := Except.bind_eq_ok_iff.mp hparts
          obtain ⟨-, rfl⟩ := Prod.mk.inj (Except.ok.inj hparts)
          obtain ⟨low, -, hvalues⟩ := Except.bind_eq_ok_iff.mp hvalues
          obtain ⟨high, -, hvalues⟩ := Except.bind_eq_ok_iff.mp hvalues
          split at hvalues
          · cases hvalues
          · split at hvalues
            · cases hvalues
            · obtain rfl := Except.ok.inj hvalues
              intro value hvalue
              exact isToken_of_mem_range hvalue
        · cases hparts
      · split at hparts
        · split at hparts
          · cases hparts
          · obtain ⟨-, rfl⟩ := Prod.mk.inj (Except.ok.inj hparts)
            intro value hvalue
            exact hheader value (by simp [hvalue])
        · cases hparts
    · cases hparts
  | conditional =>
    simp only [Block.ofHeader] at h
    split at h
    · obtain ⟨rfl, -⟩ := Prod.mk.inj (Except.ok.inj h)
      trivial
    · obtain ⟨rfl, -⟩ := Prod.mk.inj (Except.ok.inj h)
      trivial
  | close => cases h

namespace BlockStack

variable {stack stack' : BlockStack} {statements out : List Statement}

theorem legible_nil : Legible [] := List.forall_mem_nil _

theorem legible_cons {b : Block} {outer : BlockStack} :
    Legible (b :: outer) ↔ b.Legible ∧ outer.Legible :=
  List.forall_mem_cons

theorem legible_pass (h : stack.Legible) (hp : stack.pass statements = (stack', out)) :
    stack'.Legible := by
  induction stack generalizing statements stack' out with
  | nil =>
    obtain ⟨rfl, -⟩ := Prod.mk.inj hp
    exact h
  | cons b outer ih =>
    obtain ⟨hb, houter⟩ := legible_cons.mp h
    obtain ⟨rfl, -⟩ := Prod.mk.inj hp
    exact legible_cons.mpr ⟨Block.legible_pass hb, ih houter rfl⟩

theorem legible_close (h : stack.Legible) (hc : stack.close = .ok (stack', out)) :
    stack'.Legible := by
  cases stack with
  | nil => cases hc
  | cons b outer => exact legible_pass (legible_cons.mp h).2 (Except.ok.inj hc)

/-- The values of the loops are tokens. -/
theorem isToken_of_mem_iterations (h : stack.Legible) {values : List (String × String)}
    (hvalues : values ∈ stack.iterations) : ∀ nv ∈ values, IsToken nv.2 := by
  induction stack generalizing values with
  | nil =>
    obtain rfl := List.mem_singleton.mp hvalues
    exact List.forall_mem_nil _
  | cons b outer ih =>
    obtain ⟨hb, houter⟩ := legible_cons.mp h
    obtain ⟨rest, hrest, hvalues⟩ := List.mem_flatMap.mp hvalues
    obtain ⟨choice, hchoice, rfl⟩ := List.mem_map.mp hvalues
    refine List.forall_mem_append.mpr ⟨?_, ih houter hrest⟩
    cases b with
    | scope name openedAt =>
      obtain rfl := List.mem_singleton.mp hchoice
      exact List.forall_mem_nil _
    | loop name elements buffer openedAt =>
      obtain ⟨value, hvalue, rfl⟩ := List.mem_map.mp hchoice
      intro nv hnv
      obtain rfl := List.mem_singleton.mp hnv
      exact hb value hvalue
    | conditional enabled openedAt =>
      cases enabled with
      | true =>
        obtain rfl := List.mem_singleton.mp hchoice
        exact List.forall_mem_nil _
      | false => cases hchoice

/-! ## Scopes in front of tokens -/

theorem reads_intercalate {parts : List (List Char)} (h : ∀ part ∈ parts, Reads part) :
    Reads (['_'].intercalate parts) := by
  induction parts with
  | nil => exact ⟨false, rfl⟩
  | cons first rest ih =>
    obtain ⟨hfirst, hrest⟩ := List.forall_mem_cons.mp h
    cases rest with
    | nil =>
      rw [List.intercalate_singleton]
      exact hfirst
    | cons second rest =>
      rw [List.intercalate_cons_cons, List.append_assoc, List.singleton_append]
      exact Line.reads_append_cons (by decide) hfirst (ih hrest)

theorem reads_scopesText (h : stack.Legible) : Reads stack.scopesText.toList := by
  have hunderscore : "_".toList = ['_'] := rfl
  rw [scopesText, String.toList_intercalate, hunderscore]
  apply reads_intercalate
  intro part hpart
  obtain ⟨delimited, hdelimited, rfl⟩ := List.mem_map.mp hpart
  obtain ⟨name, hname, rfl⟩ := List.mem_map.mp hdelimited
  obtain ⟨b, hb, hscope⟩ := List.mem_filterMap.mp (List.mem_reverse.mp hname)
  cases b with
  | scope name' openedAt =>
    obtain rfl := Option.some.inj hscope
    exact Line.reads_delimit (Line.isToken_iff.mp (h _ hb)).2
  | loop => cases hscope
  | conditional => cases hscope

theorem isToken_scoped (h : stack.Legible) {token : String} (ht : IsToken token) :
    IsToken ("_" ++ stack.scopesText ++ "_" ++ token) := by
  obtain ⟨hne, hreads⟩ := Line.isToken_iff.mp ht
  have hlist : ("_" ++ stack.scopesText ++ "_" ++ token).toList =
      [] ++ '_' :: (stack.scopesText.toList ++ '_' :: token.toList) := by
    simp
  rw [Line.isToken_iff, hlist]
  refine ⟨by simp, ?_⟩
  apply Line.reads_append_cons (by decide) ⟨false, rfl⟩
  exact Line.reads_append_cons (by decide) (reads_scopesText h) hreads

/-- A name gets its scopes in front, or is left alone. -/
theorem qualify_cases (stack : BlockStack) (name : String) :
    stack.qualify name = name ∨
      stack.qualify name = "_" ++ stack.scopesText ++ "_" ++ name := by
  unfold qualify scopesText
  simp only
  split
  · exact Or.inl rfl
  · exact Or.inr rfl

theorem isToken_qualify (h : stack.Legible) {token : String} (ht : IsToken token) :
    IsToken (stack.qualify token) := by
  rcases stack.qualify_cases token with hq | hq
  · rw [hq]
    exact ht
  · rw [hq]
    exact isToken_scoped h ht

theorem isToken_qualify_colon (h : stack.Legible) {label : String} (ht : IsToken (label ++ ":")) :
    IsToken (stack.qualify label ++ ":") := by
  rcases stack.qualify_cases label with hq | hq
  · rw [hq]
    exact ht
  · rw [hq, String.append_assoc]
    exact isToken_scoped h ht

end BlockStack

end Mlog
