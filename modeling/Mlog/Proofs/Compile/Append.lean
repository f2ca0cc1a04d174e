import Mlog.Proofs.Compile.Moved
import Mlog.Proofs.Text.Lines

/-!
# Units one after the other

Two sources that compile, with a line feed between them, compile to the statements of the first and
then those of the second.  A unit that compiles ends with no block open, so nothing is left over
that the second could notice but where its lines are (`unit_append`).  Directives are about the
whole unit, so the second source may have none.

The line feed takes a carriage return at the end of the first source along.  The last line is then
written in another way, which its statements and warnings do not show.
-/
set_option autoImplicit false

namespace Mlog.Compile

/-! ## The lines of the two sources -/

theorem sourceLines_newline (s t : String) :
    sourceLines (s ++ "\n" ++ t) = sourceLines (s ++ "\n") ++ sourceLines t := by
  unfold sourceLines
  rw [← List.map_append, String.toList_append, String.toList_append,
    show "\n".toList = ['\n'] from rfl, List.append_assoc]
  exact congrArg _ (Text.lines_newline s.toList t.toList)

theorem sourceLines_concat_newline (s : String) :
    sourceLines (s ++ "\n") = sourceLines s ++ [""] ∨ sourceLines (s ++ "\n") = sourceLines s ∨
      ∃ before last, sourceLines s = before ++ [last ++ "\r"] ∧
        sourceLines (s ++ "\n") = before ++ [last] := by
  unfold sourceLines
  rw [String.toList_append, show "\n".toList = ['\n'] from rfl]
  rcases Text.lines_concat_newline s.toList with h | h | ⟨before, last, h, h'⟩
  · exact Or.inl (by rw [h, List.map_append]; rfl)
  · exact Or.inr (Or.inl (by rw [h]))
  · refine Or.inr (Or.inr ⟨before.map String.ofList, String.ofList last, ?_, ?_⟩)
    · rw [h, List.map_append, List.map_singleton, String.ofList_append]
    · rw [h', List.map_append, List.map_singleton]

/-! ## The end of the first source -/

section Return

variable {settings : Settings} {filename : String} {p q : Progress} {number : Nat}

/-- What a unit has but for how its lines were written. -/
structure Progress.Alike (p q : Progress) : Prop where
  stack : List.Forall₂ (Block.Moved 0 False) p.stack q.stack
  header : q.header = p.header
  diagnostics : q.diagnostics = p.diagnostics
  statements : List.Forall₂ (Statement.Moved 0 False) p.statements q.statements

theorem Progress.Alike.refl (p : Progress) : Alike p p where
  stack := List.forall₂_same.mpr fun b _ => Block.Moved.refl False b
  header := rfl
  diagnostics := rfl
  statements := List.forall₂_same.mpr fun s _ => Statement.Moved.refl False s

/-- A line may lose the carriage return at its end. -/
theorem unitLine_return {last : String}
    (h : unitLine settings filename p number (last ++ "\r") = .ok q) :
    ∃ q', unitLine settings filename p number last = .ok q' ∧ Progress.Alike q q' := by
  cases hd : Directive.isDirective last with
  | true =>
    have hd' : Directive.isDirective (last ++ "\r") = true := by
      rw [Directive.isDirective_return, hd]
    have hsame : unitLine settings filename p number last = .ok q := by
      rw [← h]
      simp only [unitLine, hd, hd', if_true, directiveLine, Directive.parse_return]
    exact ⟨q, hsame, .refl q⟩
  | false =>
    have hd' : Directive.isDirective (last ++ "\r") = false := by
      rw [Directive.isDirective_return, hd]
    have hstart := Progress.Alike.refl p
    obtain ⟨q', hq', hstack, hheader, ⟨added, added', hq, hr, hs⟩, raised, hraised, hraised'⟩ :=
      unitLine_moved (n := 0) (r := p) hd' hd (Line.clean_return last).symm (fun h => h.elim)
        hstart.stack h
    refine ⟨q', hq', hstack, hheader.2.trans hheader.1.symm, ?_, ?_⟩
    · rw [hraised', hraised, Diagnostic.shift_zero, List.map_id]
    · rw [hq, hr]
      exact List.rel_append hstart.statements hs

/-- The lines of the first source do the same with a line feed behind them. -/
theorem unitLines_newline {source : String}
    (h : unitLines settings filename p number (sourceLines source) = .ok q) :
    ∃ q', unitLines settings filename p number (sourceLines (source ++ "\n")) = .ok q' ∧
      Progress.Alike q q' := by
  rcases sourceLines_concat_newline source with hlines | hlines | ⟨before, last, hbefore, hlines⟩
  · -- the line feed ends an empty line
    have hblank : ∀ line ∈ [""], IsBlank line := by decide
    refine ⟨q, ?_, .refl q⟩
    rw [hlines, unitLines_append, h]
    exact unitLines_of_blank hblank
  · rw [hlines]
    exact ⟨q, h, .refl q⟩
  · rw [hbefore, unitLines_append] at h
    obtain ⟨mid, hmid, h⟩ := Except.bind_eq_ok_iff.mp h
    obtain ⟨_, hlast, h⟩ := Except.bind_eq_ok_iff.mp h
    obtain rfl := Except.ok.inj h
    obtain ⟨q', hq', halike⟩ := unitLine_return hlast
    refine ⟨q', ?_, halike⟩
    rw [hlines, unitLines_append]
    exact Except.bind_eq_ok_iff.mpr ⟨mid, hmid, Except.bind_eq_ok_iff.mpr ⟨q', hq', rfl⟩⟩

end Return

/-! ## The two sources -/

/-- Two views of lists that agree on what is related. -/
theorem map_eq_map_of_forall₂ {α β γ : Type} {R : α → β → Prop} {f : α → γ} {g : β → γ}
    (hfg : ∀ a b, R a b → g b = f a) {as : List α} {bs : List β} (h : List.Forall₂ R as bs) :
    bs.map g = as.map f := by
  induction h with
  | nil => rfl
  | cons hab _ ih => rw [List.map_cons, List.map_cons, hfg _ _ hab, ih]

/-- **Compiling is compositional where no block is open.**  If two sources compile, and the second
has no directive, then they compile with a line feed between them.  The statements are those of the
first and then those of the second, further down by the lines before it; and what was reported about
the lines of the second is reported again, further down by as much. -/
theorem unit_append {settings : Settings} {filename first second : String} {seed seed' : Symbols}
    {o o' : Output} (hcode : ∀ line ∈ sourceLines second, Directive.isDirective line = false)
    (h : unit settings filename first seed = .ok o)
    (h' : unit settings filename second seed' = .ok o') :
    let before := sourceLines (first ++ "\n")
    sourceLines (first ++ "\n" ++ second) = before ++ sourceLines second ∧
    ∃ both statements raised raised',
      unit settings filename (first ++ "\n" ++ second) seed = .ok both ∧
      both.statements.map Statement.tokens =
        o.statements.map Statement.tokens ++ o'.statements.map Statement.tokens ∧
      both.statements = statements ++ o'.statements.map (Statement.shift before.length) ∧
      statements.map Statement.location = o.statements.map Statement.location ∧
      both.header = o.header ∧
      o.diagnostics = raised ++ o.symbols.diagnose ∧
      o'.diagnostics = raised' ++ o'.symbols.diagnose ∧
      both.diagnostics =
        raised ++ raised'.map (Diagnostic.shift before.length) ++ both.symbols.diagnose := by
  intro before
  have hlines := sourceLines_newline first second
  refine ⟨hlines, ?_⟩
  obtain ⟨p, hp, hstack, rfl⟩ := unit_eq_ok_iff.mp h
  obtain ⟨q, hq, hstack', rfl⟩ := unit_eq_ok_iff.mp h'
  -- the first source ends with no block open, so the second starts as it does alone
  obtain ⟨p', hp', halike⟩ := unitLines_newline hp
  have hnone : p'.stack = [] := List.forall₂_nil_left_iff.mp (hstack ▸ halike.stack)
  have hstart : List.Forall₂ (Block.Moved before.length True)
      (Progress.stack { symbols := seed' }) p'.stack := by
    rw [hnone]
    exact .nil
  obtain ⟨r, hr, hend, hheader, ⟨added, added', hadded, hr', hs⟩, raised, hraised, hraised'⟩ :=
    unitLines_moved hcode hstart hq
  obtain rfl : q.statements = added := hadded
  obtain rfl : q.diagnostics = raised := hraised
  have hrstack : r.stack = [] := List.forall₂_nil_left_iff.mp (hstack' ▸ hend)
  have hrun : unitLines settings filename { symbols := seed } 1
      (sourceLines (first ++ "\n" ++ second)) = .ok r := by
    rw [hlines, unitLines_append]
    exact Except.bind_eq_ok_iff.mpr ⟨p', hp', hr⟩
  have hmoved : added' = q.statements.map (Statement.shift before.length) := by
    rw [← List.map_id added']
    exact map_eq_map_of_forall₂ (fun s t hst => hst.eq_shift) hs
  have htokens : p'.statements.map Statement.tokens = p.statements.map Statement.tokens :=
    map_eq_map_of_forall₂ (fun s t hst => hst.tokens) halike.statements
  have hlocations : p'.statements.map Statement.location = p.statements.map Statement.location :=
    map_eq_map_of_forall₂ (fun s t hst => hst.provenance.location) halike.statements
  refine ⟨_, p'.statements, p.diagnostics, q.diagnostics,
    unit_eq_ok_iff.mpr ⟨r, hrun, hrstack, rfl⟩, ?_, ?_, hlocations, ?_, rfl, rfl, ?_⟩
  · rw [hr', List.map_append, htokens]
    exact congrArg _ (map_eq_map_of_forall₂ (fun s t hst => hst.tokens) hs)
  · rw [hr', hmoved]
  · exact hheader.2.trans halike.header
  · rw [hraised', halike.diagnostics]

/-- A directive and a loop that ends in a carriage return, and behind them a loop with a line that
is skipped. -/
theorem unit_append_loops :
    let first := "#author me\n&for i of a b \x7b\nset $i 1\n\x7d\r"
    let second := "&for k of x \x7b\nset $k 2\nnonsense\n\x7d"
    ∃ both, unit {} "main.mlogx" (first ++ "\n" ++ second) {} = .ok both ∧
      both.statements.map Statement.tokens =
        [["set", "a", "1"], ["set", "b", "1"]] ++ [["set", "x", "2"]] ∧
          both.header.author = some "me" := by
  intro first second
  have hcode : ∀ line ∈ sourceLines second, Directive.isDirective line = false := by
    decide +kernel
  have hfirst : (unit {} "main.mlogx" first {}).toOption.map
      (fun o => (o.statements.map Statement.tokens, o.header.author)) =
        some ([["set", "a", "1"], ["set", "b", "1"]], some "me") := by
    decide +kernel
  have hsecond : (unit {} "main.mlogx" second {}).toOption.map
      (fun o => o.statements.map Statement.tokens) = some [["set", "x", "2"]] := by
    decide +kernel
  obtain ⟨o, h, ho⟩ := Except.exists_of_toOption_map hfirst
  obtain ⟨o', h', ho'⟩ := Except.exists_of_toOption_map hsecond
  obtain ⟨htokens, hauthor⟩ := Prod.mk.inj ho
  obtain ⟨-, both, -, -, -, hboth, hall, -, -, hheader, -⟩ := unit_append hcode h h'
  refine ⟨both, hboth, ?_, hheader ▸ hauthor⟩
  rw [hall, htokens, ho']

end Mlog.Compile
