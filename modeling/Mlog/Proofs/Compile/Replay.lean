import Mlog.Proofs.Compile.ReadBack

/-!
# Instructions that are replayed

A loop binds its variable twice over: in the tokens of a statement, each by itself, and in the text
that the tokens were read from.  A statement is verbatim if its tokens are those of its text.  It
stays so when a variable is bound, if the value holds no space, quote or backslash
(`Statement.Verbatim.bind`), and so it stays through any number of loops.

An instruction that means itself and stands in no scope becomes a verbatim statement
(`Entry.statements_asWritten`).  Each of its copies is then what would have been read from the copy
of its text (`replay_verbatim`).
-/
set_option autoImplicit false

namespace Mlog

open Line (Quiet)

/-- The tokens of the statement are the tokens of the text it came from. -/
def Statement.Verbatim (s : Statement) : Prop := Line.tokens s.provenance.modified = .ok s.tokens

namespace Statement.Verbatim

variable {s : Statement}

theorem bind {name value : String} (h : s.Verbatim) (hne : value.toList ≠ [])
    (hquiet : Quiet ' ' value.toList) : (s.bind name value).Verbatim :=
  Line.tokens_bind name hne hquiet h

theorem bindEach {values : List (String × String)} (h : s.Verbatim)
    (hvalues : ∀ nv ∈ values, nv.2.toList ≠ [] ∧ Quiet ' ' nv.2.toList) :
    (s.bindEach values).Verbatim := by
  induction values generalizing s with
  | nil => exact h
  | cons nv values ih =>
    obtain ⟨⟨hne, hquiet⟩, hvalues⟩ := List.forall_mem_cons.mp hvalues
    exact ih (h.bind hne hquiet) hvalues

end Statement.Verbatim

namespace Compile

/-! ## Instructions as they are written -/

/-- Where no scope is open, nothing is put in front of anything. -/
theorem qualifyLine_of_no_scope {stack : BlockStack} (h : stack.scopes = []) (o : Overload)
    (tokens : List String) : qualifyLine stack o tokens = tokens := by
  have hqualify : ∀ token, stack.qualify token = token := by
    intro token
    simp [BlockStack.qualify, h]
  have hoperand : ∀ (param : Option Param) (token : String),
      qualifyOperand stack param token = token := by
    intro param token
    unfold qualifyOperand
    split
    · rfl
    · simp only [hqualify, ite_self]
  simp only [qualifyLine, hoperand]
  rw [List.zipIdx_map_fst, List.take_append_drop]

/-- An instruction that means itself, in no scope, becomes itself. -/
theorem Entry.statements_asWritten {e : Entry} {o : Overload} (hscopes : e.stack.scopes = [])
    (hr : Instruction.resolve e.tokens = .ok o) (hx : o.expansion = .asWritten) :
    e.statements = [⟨e.tokens, e.provenance⟩] := by
  have hbase : baseOverload e.tokens e.tokens e.provenance.location = .ok o :=
    baseOverload_eq_ok_iff.mpr ⟨hr, hx⟩
  have hlower : lower e.stack o e.tokens e.provenance = .ok [⟨e.tokens, e.provenance⟩] := by
    have hexpand : o.expand e.tokens = [e.tokens] := by rw [Overload.expand, hx, Expansion.apply]
    rw [lower, hexpand, List.mapM_cons, List.mapM_nil, hbase]
    show Except.ok [_] = _
    rw [qualifyLine_of_no_scope hscopes]
  rw [statements, labelOf?_of_resolve hr, hr]
  show (lower e.stack o e.tokens e.provenance).toOption.getD [] = _
  rw [hlower]
  rfl

/-! ## Entries and their texts -/

section Read

variable {settings : Settings} {filename : String}

theorem exists_entryOf?_of_mem_partsEntries {location : Location} {source : String}
    {stack : BlockStack} {texts : List String} {e : Entry}
    (h : e ∈ partsEntries settings location source stack texts) :
    ∃ stack' text, entryOf? settings location source stack' text = some e := by
  induction texts generalizing stack with
  | nil => cases h
  | cons text texts ih =>
    rcases List.mem_append.mp h with h | h
    · exact ⟨stack, text, Option.mem_toList.mp h⟩
    · split at h
      · cases h
      · exact ih h

theorem exists_view_of_mem_collect {α : Type} {view : Progress → Nat → String → List α} {x : α}
    {lines : List String} {p : Progress} {number : Nat}
    (h : x ∈ collect settings filename view p number lines) :
    ∃ p' number' line, x ∈ view p' number' line := by
  induction lines generalizing p number with
  | nil => cases h
  | cons line lines ih =>
    rcases List.mem_append.mp h with h | h
    · exact ⟨p, number, line, h⟩
    · split at h
      · cases h
      · exact ih h

/-- What an entry was read from, whether or not the unit succeeds. -/
theorem tokens_of_mem_entries {source : String} {seed : Symbols} {e : Entry}
    (h : e ∈ entries settings filename source seed) :
    Line.tokens e.provenance.modified = .ok e.tokens := by
  obtain ⟨p, number, line, h⟩ := exists_view_of_mem_collect h
  unfold entriesAt lineEntries at h
  split at h
  · cases h
  · split at h
    · cases h
    · obtain ⟨stack, text, hentry⟩ := exists_entryOf?_of_mem_partsEntries h
      obtain ⟨htokens, -, hmodified⟩ := of_entryOf? hentry
      rw [hmodified]
      exact htokens

end Read

/-- **Binding a loop variable and reading tokens commute.**  The tokens of a text with a variable
bound are its tokens, each with the variable bound, if the value is not empty and holds no space,
quote or backslash.  All that a unit puts out is copies of its entries; and where an instruction
means itself and stands in no scope, each of its copies is one statement, whose tokens are the
tokens of its text, if the values of the loops around it are of that kind. -/
theorem replay_verbatim :
    (∀ (text name value : String) (ts : List String), Line.tokens text = .ok ts →
      value ≠ "" → Quiet ' ' value.toList →
        Line.tokens (Reference.bind name value text) =
          .ok (ts.map (Reference.bind name value))) ∧
    ∀ (settings : Settings) (filename source : String) (seed : Symbols),
      (∀ output, unit settings filename source seed = .ok output →
        ∀ s ∈ output.statements, ∃ e ∈ entries settings filename source seed,
          ∃ values ∈ e.stack.iterations, s ∈ e.copy values) ∧
      ∀ e ∈ entries settings filename source seed, ∀ o, Instruction.resolve e.tokens = .ok o →
        o.expansion = .asWritten → e.stack.scopes = [] → ∀ values ∈ e.stack.iterations,
          (∀ nv ∈ values, nv.2 ≠ "" ∧ Quiet ' ' nv.2.toList) →
            ∃ s, e.copy values = [s] ∧ Line.tokens s.provenance.modified = .ok s.tokens := by
  have hempty : ∀ value : String, value ≠ "" → value.toList ≠ [] := by
    intro value hne hnil
    exact hne (String.toList_eq_nil_iff.mp hnil)
  refine ⟨fun text name value ts htext hne hquiet => ?_, fun settings filename source seed =>
    ⟨fun output hunit s hs => ?_, fun e he o hr hx hscopes values _ hvalues => ?_⟩⟩
  · exact Line.tokens_bind name (hempty value hne) hquiet htext
  · obtain ⟨e, he, made, hmade, values, hvalues, rfl⟩ := exists_copy_of_mem hunit hs
    exact ⟨e, he, values, hvalues, List.mem_map_of_mem hmade⟩
  · have hread : Statement.Verbatim ⟨e.tokens, e.provenance⟩ := tokens_of_mem_entries he
    have hquiet : ∀ nv ∈ values, nv.2.toList ≠ [] ∧ Quiet ' ' nv.2.toList := by
      intro nv hnv
      exact ⟨hempty nv.2 (hvalues nv hnv).1, (hvalues nv hnv).2⟩
    refine ⟨_, ?_, hread.bindEach hquiet⟩
    rw [Entry.copy, Entry.statements_asWritten hscopes hr hx, List.map_singleton]

/-- Two loops, one inside the other, around an instruction with a string. -/
theorem replay_verbatim_nested :
    let source := "&for i of a b \x7b\n&for j in 1 2 \x7b\nset  $(i)x$j \"$i $j\"\n\x7d\n\x7d"
    let values := [("j", "2"), ("i", "a")]
    ∃ e ∈ entries {} "main.mlogx" source {}, e.stack.scopes = [] ∧ values ∈ e.stack.iterations ∧
      ∃ s, e.copy values = [s] ∧ s.tokens = ["set", "ax2", "\"a 2\""] ∧
        Line.tokens s.provenance.modified = .ok s.tokens := by
  intro source values
  have hviews : (entries {} "main.mlogx" source {}).map (fun e =>
      ((Instruction.resolve e.tokens).toOption.map Overload.expansion, e.stack.scopes,
        e.stack.iterations.contains values, (e.copy values).map Statement.tokens)) =
      [(some .asWritten, [], true, [["set", "ax2", "\"a 2\""]])] := by
    decide +kernel
  obtain ⟨e, hentries, hview⟩ := List.map_eq_singleton_iff.mp hviews
  simp only [Prod.mk.injEq, List.contains_iff_mem] at hview
  obtain ⟨hwritten, hscopes, hvalues, htokens⟩ := hview
  have he : e ∈ entries {} "main.mlogx" source {} := by simp [hentries]
  cases hr : Instruction.resolve e.tokens with
  | error r =>
    rw [hr] at hwritten
    cases hwritten
  | ok o =>
    rw [hr] at hwritten
    have hquiet : ∀ nv ∈ values, nv.2 ≠ "" ∧ Quiet ' ' nv.2.toList := by
      simp [values, Quiet]
    obtain ⟨s, hs, hread⟩ := (replay_verbatim.2 {} "main.mlogx" source {}).2 e he o hr
      (Option.some.inj hwritten) hscopes values hvalues hquiet
    rw [hs] at htokens
    exact ⟨e, he, hscopes, hvalues, s, hs, (List.cons.inj htokens).1, hread⟩

end Compile

end Mlog
