import Mlog.Proofs.Compile.Run
import Mlog.Proofs.Instruction.Shorthand

/-!
# When the compiler contradicts itself

An internal error says that the instruction set contradicts itself: a line was taken, and what it
expands to was not.  It is meant never to happen.  It does, and `unit_internal_iff` says when: a
unit ends in an internal error exactly if it gets to a senseless shorthand, such as
`sensor x a.nope`.

Every other way to fail is ruled out level by level.  Rejections, broken structure and directives
are errors of their own kind, block keywords have block constructs for all their overloads, and
expansions other than the shorthand's are served by the table.
-/
set_option autoImplicit false

namespace Mlog

/-- Whether an error is the compiler's own. -/
def CompileError.isInternal : CompileError → Bool
  | internal .. => true
  | broken .. | rejected .. => false

namespace Instruction

/-- A senseless line means something: the shorthand takes it. -/
theorem exists_resolve_of_senseless {tokens : List String} (h : Senseless tokens) :
    ∃ o, resolve tokens = .ok o := by
  obtain ⟨output, thing, property, rfl, -, hout, hshape, -⟩ := h
  obtain ⟨o, ho, hp⟩ := overloads_sensor.2.2.2
  refine exists_resolve_iff.mpr ⟨o, ho, ?_⟩
  rw [Overload.takes_iff_of_isPlain (overloads_sensor.1 o ho).1, hp]
  have htarget : (Param.val "target" .senseShorthand).takes (thing ++ "." ++ property) = true := by
    simp only [Param.takes, Param.val, Ty.isWildcard, Ty.excludes, Ty.recognises, hshape]
    simp
  simp only [List.zip_cons_cons, List.forall_mem_cons]
  exact ⟨rfl, Param.takes_out_iff.mpr hout, htarget, by simp⟩

end Instruction

namespace Compile

/-! ## Errors of other kinds -/

theorem isInternal_of_reject {options : Options} {r : Rejection} {provenance : Provenance}
    {e : CompileError} (h : reject options r provenance = .error e) : e.isInternal = false := by
  unfold reject at h
  split at h
  · obtain rfl := Except.error.inj h
    rfl
  · exact absurd h (by simp)

theorem isInternal_of_judge {options : Options} {s : Statement} {e : CompileError}
    (h : judge options s = .error e) : e.isInternal = false := by
  unfold judge at h
  split at h
  · exact absurd h (by simp)
  · split at h
    · exact absurd h (by simp)
    · next r hr =>
      cases hj : reject options r s.provenance with
      | error e' =>
        rw [hj] at h
        obtain rfl : e' = e := by simpa [Except.map] using h
        exact isInternal_of_reject hj
      | ok d => rw [hj] at h; exact absurd h (by simp [Except.map])

theorem isInternal_of_directiveLine {location : Location} {p : Progress} {source : String}
    {e : CompileError} (h : directiveLine location p source = .error e) :
    e.isInternal = false := by
  unfold directiveLine at h
  split at h
  · obtain rfl := Except.error.inj h
    rfl
  · obtain ⟨e', rfl⟩ := Except.mapError_eq_error h
    rfl

theorem isInternal_of_closeBlock {stack : BlockStack} {rest : List String} {location : Location}
    {e : CompileError} (h : (closeBlock stack rest location).result = .error e) :
    e.isInternal = false := by
  rcases closeBlock_cases stack rest location with ⟨fault, hc⟩ | ⟨r, -, -, hc⟩
  · rw [hc] at h
    obtain rfl := Except.error.inj h
    rfl
  · rw [hc] at h
    cases h

/-- A header that begins with a block keyword opens a block or is refused. -/
theorem isInternal_of_openBlock {stack : BlockStack} {keyword : String} {rest : List String}
    {location : Location} {e : CompileError} (hk : Instruction.isBlockKeyword keyword = true)
    (h : (openBlock stack (keyword :: rest) location).result = .error e) :
    e.isInternal = false := by
  cases openBlock_error h with
  | unresolved | atFault => rfl
  | blockless ho hnone =>
    obtain ⟨hmem, hh, -⟩ := Instruction.of_resolve ho
    have hblock := Instruction.isSome_block_of_keyword hk
      (Instruction.mem_overloads_iff.mpr ⟨hmem, (Option.some.inj hh).symm⟩)
    rw [hnone] at hblock
    cases hblock

theorem isInternal_of_blockLine {stack : BlockStack} {keyword : String} {rest : List String}
    {location : Location} {e : CompileError} (hk : Instruction.isBlockKeyword keyword = true)
    (h : (blockLine stack (keyword :: rest) location).result = .error e) :
    e.isInternal = false := by
  unfold blockLine at h
  split at h
  · exact isInternal_of_closeBlock h
  · split at h
    · next hlast =>
      -- the brace is not the keyword, so the header still begins with it
      cases rest with
      | nil =>
        obtain rfl : keyword = "\x7b" := by simpa using hlast
        exact absurd hk (by decide)
      | cons r rest => exact isInternal_of_openBlock hk h
    · obtain rfl := Except.error.inj h
      rfl

/-! ## Instructions -/

theorem isInternal_of_baseOverload {tokens line : List String} {location : Location}
    {e : CompileError} (h : baseOverload tokens line location = .error e) :
    e.isInternal = true := by
  unfold baseOverload at h
  split at h
  · split at h
    · exact absurd h (by simp)
    · obtain rfl := Except.error.inj h
      rfl
  · obtain rfl := Except.error.inj h
    rfl

/-- An instruction can be lowered when its lines mean base instructions. -/
theorem lower_isOk_iff {stack : BlockStack} {o : Overload} {tokens : List String}
    {provenance : Provenance} :
    (∃ out, lower stack o tokens provenance = .ok out) ↔
      ∀ line ∈ o.expand tokens,
        ∃ base, Instruction.resolve line = .ok base ∧ base.expansion = .asWritten := by
  unfold lower
  rw [Except.mapM_isOk_iff]
  refine forall_congr' fun line => imp_congr_right fun _ => ?_
  constructor
  · rintro ⟨s, hs⟩
    obtain ⟨base, hbase, -⟩ := Except.bind_eq_ok_iff.mp hs
    exact ⟨base, baseOverload_eq_ok_iff.mp hbase⟩
  · rintro ⟨base, hbase⟩
    exact ⟨_, Except.bind_eq_ok_iff.mpr ⟨base, baseOverload_eq_ok_iff.mpr hbase, rfl⟩⟩

theorem isInternal_of_lower {stack : BlockStack} {o : Overload} {tokens : List String}
    {provenance : Provenance} {e : CompileError}
    (h : lower stack o tokens provenance = .error e) : e.isInternal = true := by
  obtain ⟨line, -, hline⟩ := Except.exists_of_mapM_eq_error h
  rcases Except.bind_eq_error_iff.mp hline with hb | ⟨base, -, hb⟩
  · exact isInternal_of_baseOverload hb
  · exact absurd hb (by simp [pure, Except.pure])

/-- An instruction ends in an internal error when it is a senseless shorthand. -/
theorem instruction_internal_iff {options : Options} {stack : BlockStack} {tokens : List String}
    {provenance : Provenance} :
    (∃ e, (instruction options stack tokens provenance).result = .error e ∧
      e.isInternal = true) ↔ Instruction.Senseless tokens := by
  cases hr : Instruction.resolve tokens with
  | error r =>
    refine iff_of_false ?_ fun hs => ?_
    · rintro ⟨e, he, hi⟩
      rw [(instruction_rejected hr).1] at he
      cases hj : reject options r provenance with
      | error e' =>
        rw [hj] at he
        obtain rfl : e' = e := by simpa [Except.map] using he
        rw [isInternal_of_reject hj] at hi
        exact absurd hi (by simp)
      | ok d => rw [hj] at he; exact absurd he (by simp [Except.map])
    · obtain ⟨o, ho⟩ := Instruction.exists_resolve_of_senseless hs
      rw [hr] at ho
      exact absurd ho (by simp)
  | ok o =>
    have hlines := Instruction.expand_resolves_iff hr
    rw [← @lower_isOk_iff stack o tokens provenance] at hlines
    cases hl : lower stack o tokens provenance with
    | error e =>
      refine iff_of_true ⟨e, (instruction_failed hr hl).1, isInternal_of_lower hl⟩ ?_
      refine Classical.not_not.mp fun hs => ?_
      obtain ⟨out, hout⟩ := hlines.mpr hs
      rw [hl] at hout
      exact absurd hout (by simp)
    | ok out =>
      refine iff_of_false ?_ (hlines.mp ⟨out, hl⟩)
      rintro ⟨e, he, -⟩
      rw [(instruction_emitted hr hl).1] at he
      exact absurd he (by simp)

/-- So does a statement. -/
theorem statement_internal_iff {options : Options} {stack : BlockStack} {tokens : List String}
    {provenance : Provenance} :
    (∃ e, (statement options stack tokens provenance).result = .error e ∧
      e.isInternal = true) ↔ Instruction.Senseless tokens := by
  cases tokens with
  | nil =>
    refine iff_of_false (by simp [statement]) ?_
    rintro ⟨output, thing, property, heq, -⟩
    exact absurd heq (by simp)
  | cons first rest =>
    unfold statement
    simp only
    by_cases hk : Instruction.isBlockKeyword first = true
    · rw [if_pos hk]
      refine iff_of_false ?_ ?_
      · rintro ⟨e, he, hi⟩
        rw [isInternal_of_blockLine hk he] at hi
        exact absurd hi (by simp)
      · rintro ⟨output, thing, property, heq, -⟩
        obtain ⟨rfl, -⟩ := List.cons.inj heq
        exact absurd hk (by decide)
    · rw [if_neg hk]
      cases hlabel : labelOf? (first :: rest) with
      | none => exact instruction_internal_iff
      | some label =>
        refine iff_of_false (by simp [emit]) ?_
        rintro ⟨output, thing, property, heq, -⟩
        rw [heq] at hlabel
        exact absurd hlabel (by simp [labelOf?])

/-! ## Units -/

theorem line_internal_iff {settings : Settings} {location : Location} {stack : BlockStack}
    {source : String} :
    (∃ e, (line settings location stack source).result = .error e ∧ e.isInternal = true) ↔
      ∃ done text rest out tokens,
        Line.statements (Line.clean source) = .ok (done ++ text :: rest) ∧
          (parts settings location source stack done).result = .ok out ∧
            statementTokens settings text = .ok tokens ∧ Instruction.Senseless tokens := by
  unfold line
  cases ht : Line.statements (Line.clean source) with
  | error e => simp [CompileError.isInternal]
  | ok texts =>
    simp only [Except.ok.injEq]
    constructor
    · rintro ⟨e, he, hi⟩
      obtain ⟨done, text, rest, out, rfl, hdone, herr⟩ := (parts_eq_error_iff ..).mp he
      rw [part_result] at herr
      cases htok : statementTokens settings text with
      | error e' =>
        rw [htok] at herr
        obtain rfl := Except.error.inj herr
        exact absurd hi (by simp [CompileError.isInternal])
      | ok tokens =>
        rw [htok] at herr
        exact ⟨done, text, rest, out, tokens, rfl, hdone, htok,
          statement_internal_iff.mp ⟨e, herr, hi⟩⟩
    · rintro ⟨done, text, rest, out, tokens, rfl, hdone, htok, hs⟩
      obtain ⟨e, he, hi⟩ := statement_internal_iff.mpr hs
      refine ⟨e, (parts_eq_error_iff ..).mpr ⟨done, text, rest, out, rfl, hdone, ?_⟩, hi⟩
      rw [part_result, htok]
      exact he

theorem unitLine_internal_iff {settings : Settings} {filename : String} {p : Progress}
    {number : Nat} {source : String} :
    (∃ e, unitLine settings filename p number source = .error e ∧ e.isInternal = true) ↔
      Directive.isDirective source = false ∧
        ∃ e, (line settings ⟨filename, number⟩ p.stack source).result = .error e ∧
          e.isInternal = true := by
  unfold unitLine
  simp only
  cases hd : Directive.isDirective source with
  | true =>
    rw [if_pos rfl]
    refine iff_of_false ?_ (by simp)
    rintro ⟨e, he, hi⟩
    rw [isInternal_of_directiveLine he] at hi
    exact absurd hi (by simp)
  | false =>
    rw [if_neg (by simp)]
    cases hr : (line settings ⟨filename, number⟩ p.stack source).result with
    | error e => simp
    | ok statements =>
      refine iff_of_false ?_ (by simp)
      rintro ⟨e, he, hi⟩
      rcases Except.bind_eq_error_iff.mp he with hj | ⟨verdicts, -, hj⟩
      · obtain ⟨s, -, hs⟩ := Except.exists_of_mapM_eq_error hj
        rw [isInternal_of_judge hs] at hi
        exact absurd hi (by simp)
      · exact absurd hj (by simp [pure, Except.pure])

/-- A unit fails with an internal error while its lines are compiled, or not at all. -/
theorem unit_eq_internal_iff {settings : Settings} {filename source : String} {seed : Symbols}
    {e : CompileError} (hi : e.isInternal = true) :
    unit settings filename source seed = .error e ↔
      unitLines settings filename { symbols := seed } 1 (sourceLines source) = .error e := by
  unfold unit
  simp only
  rw [Except.bind_eq_error_iff]
  refine or_iff_left ?_
  rintro ⟨p, -, h⟩
  rcases Except.bind_eq_error_iff.mp h with h | ⟨_, -, h⟩
  · obtain ⟨fault, rfl⟩ := Except.mapError_eq_error h
    exact absurd hi (by simp [CompileError.isInternal])
  · exact absurd h (by simp [pure, Except.pure])

/-- **A unit ends in an internal error exactly if it gets to a senseless shorthand.**  With it
stand the two facts about the instruction set that the error speaks of: the lines whose expansion
means no base instruction are the senseless ones, and a block keyword means no instruction. -/
theorem unit_internal_iff (settings : Settings) (filename source : String) (seed : Symbols) :
    ((∃ fault location,
        unit settings filename source seed = .error (.internal fault location)) ↔
      ∃ tokens, Reaches settings filename source seed tokens ∧ Instruction.Senseless tokens) ∧
    (∀ tokens o, Instruction.resolve tokens = .ok o →
      ((∀ line ∈ o.expand tokens,
          ∃ base, Instruction.resolve line = .ok base ∧ base.expansion = .asWritten) ↔
        ¬ Instruction.Senseless tokens)) ∧
    (∀ keyword rest o, Instruction.isBlockKeyword keyword = true →
      Instruction.resolve (keyword :: rest) = .ok o → o.block.isSome = true) := by
  refine ⟨?_, fun tokens o h => Instruction.expand_resolves_iff h, fun keyword rest o hk h => ?_⟩
  · constructor
    · rintro ⟨fault, location, h⟩
      rw [unit_eq_internal_iff rfl] at h
      obtain ⟨before, line, after, p, hlines, hbefore, herr⟩ := unitLines_eq_error_iff.mp h
      obtain ⟨hd, hline⟩ := unitLine_internal_iff.mp ⟨_, herr, rfl⟩
      obtain ⟨done, text, rest, out, tokens, hstmts, hdone, htok, hs⟩ := line_internal_iff.mp hline
      exact ⟨tokens, ⟨before, after, done, rest, line, text, p, out, hlines, hbefore, hd, hstmts,
        hdone, htok⟩, hs⟩
    · rintro ⟨tokens, ⟨before, after, done, rest, line, text, p, out, hlines, hbefore, hd, hstmts,
        hdone, htok⟩, hs⟩
      have hline := line_internal_iff.mpr ⟨done, text, rest, out, tokens, hstmts, hdone, htok, hs⟩
      obtain ⟨e, he, hi⟩ := unitLine_internal_iff.mpr ⟨hd, hline⟩
      have hunit : unit settings filename source seed = .error e :=
        (unit_eq_internal_iff hi).mpr
          (unitLines_eq_error_iff.mpr ⟨before, line, after, p, hlines, hbefore, he⟩)
      cases e with
      | internal fault location => exact ⟨fault, location, hunit⟩
      | broken => exact absurd hi (by simp [CompileError.isInternal])
      | rejected => exact absurd hi (by simp [CompileError.isInternal])
  · obtain ⟨hmem, hh, -⟩ := Instruction.of_resolve h
    exact Instruction.isSome_block_of_keyword hk
      (Instruction.mem_overloads_iff.mpr ⟨hmem, (Option.some.inj hh).symm⟩)

/-- A property that the game does not have: the shorthand takes the line, no sensor takes what it
stands for, and the unit is given up. -/
theorem unit_internal_nope :
    unit {} "main.mlogx" "sensor x a.nope" {} =
      .error (.internal
        (.expandsToUnknown ["sensor", "x", "a.nope"] ["sensor", "x", "a", "@nope"]
          ⟨.operandCount "sensor output:*any target:senseShorthand" 2 (some 2) 3, false⟩)
        ⟨"main.mlogx", 1⟩) := by
  rfl

end Compile

end Mlog
