import Mlog.Proofs.Compile.Contradiction
import Mlog.Proofs.Compile.Matching

/-!
# Which blocks are open

At every point that a unit gets to, the open blocks are the openers before it that no brace has
matched.  What the compiler reports about blocks follows from that: a brace by itself fails where
nothing is unmatched, and no other statement fails that way; the end of a unit fails where
something is, and names it (`unit_blocks_exact`).
-/
set_option autoImplicit false

namespace Mlog.Compile

/-! ## A brace with nothing to end -/

section Stray

theorem rangeElements_ne_noBlockToEnd {lower upper : String} :
    Block.rangeElements lower upper ≠ .error .noBlockToEnd := by
  intro h
  have hbound : ∀ text, Block.parseBound text ≠ .error .noBlockToEnd := by
    intro text h
    unfold Block.parseBound at h
    split at h <;> cases h
  rcases Except.bind_eq_error_iff.mp h with h | ⟨l, -, h⟩
  · exact hbound lower h
  rcases Except.bind_eq_error_iff.mp h with h | ⟨u, -, h⟩
  · exact hbound upper h
  split at h
  · cases h
  · split at h <;> cases h

theorem loopParts_ne_noBlockToEnd {tokens : List String} :
    Block.loopParts tokens ≠ .error .noBlockToEnd := by
  intro h
  unfold Block.loopParts at h
  split at h
  · split at h
    · split at h
      · rcases Except.bind_eq_error_iff.mp h with h | ⟨elements, -, h⟩
        · exact rangeElements_ne_noBlockToEnd h
        · cases h
      · cases h
    · split at h
      · split at h <;> cases h
      · cases h
  · cases h

/-- A header that opens no block is at fault itself. -/
theorem ofHeader_ne_noBlockToEnd {kind : BlockKind} {tokens : List String} {location : Location} :
    Block.ofHeader kind tokens location ≠ .error .noBlockToEnd := by
  intro h
  cases kind with
  | scope =>
    simp only [Block.ofHeader] at h
    split at h <;> cases h
  | loop =>
    rcases Except.bind_eq_error_iff.mp h with h | ⟨loop, -, h⟩
    · exact loopParts_ne_noBlockToEnd h
    · cases h
  | conditional =>
    simp only [Block.ofHeader] at h
    split at h <;> cases h
  | close => cases h

variable {settings : Settings} {location place : Location} {source text : String}
  {stack : BlockStack} {tokens : List String}

theorem openBlock_ne_noBlockToEnd :
    (openBlock stack tokens location).result ≠ .error (.broken .noBlockToEnd place) := by
  intro h
  cases openBlock_error h with
  | atFault hr hk hb => exact ofHeader_ne_noBlockToEnd hb

theorem closeBlock_noBlockToEnd_iff :
    (closeBlock stack tokens location).result = .error (.broken .noBlockToEnd place) ↔
      tokens = [] ∧ stack = [] ∧ place = location := by
  cases tokens with
  | cons token rest => simp [closeBlock]
  | nil =>
    cases stack with
    | nil => simp [closeBlock, BlockStack.close, eq_comm]
    | cons b outer => simp [closeBlock, BlockStack.close]

theorem blockLine_noBlockToEnd_iff :
    (blockLine stack tokens location).result = .error (.broken .noBlockToEnd place) ↔
      tokens = ["\x7d"] ∧ stack = [] ∧ place = location := by
  unfold blockLine
  split
  · next hhead =>
    obtain ⟨rest, rfl⟩ := List.head?_eq_some_iff.mp (beq_iff_eq.mp hhead)
    simp [closeBlock_noBlockToEnd_iff]
  · next hhead =>
    refine iff_of_false ?_ ?_
    · split
      · exact openBlock_ne_noBlockToEnd
      · simp
    · rintro ⟨rfl, -⟩
      exact hhead rfl

/-- An instruction is rejected or contradicts the instruction set; it breaks no structure. -/
theorem instruction_ne_broken {options : Options} {provenance : Provenance} {fault : Fault} :
    (instruction options stack tokens provenance).result ≠ .error (.broken fault place) := by
  intro h
  cases hr : Instruction.resolve tokens with
  | error r =>
    rw [(instruction_rejected hr).1, reject] at h
    split at h <;> cases h
  | ok o =>
    cases hl : lower stack o tokens provenance with
    | error e =>
      rw [(instruction_failed hr hl).1] at h
      rw [Except.error.inj h] at hl
      exact absurd (isInternal_of_lower hl) (by simp [CompileError.isInternal])
    | ok statements =>
      rw [(instruction_emitted hr hl).1] at h
      cases h

theorem part_noBlockToEnd_iff :
    (part settings location source stack text).result = .error (.broken .noBlockToEnd place) ↔
      statementTokens settings text = .ok ["\x7d"] ∧ stack = [] ∧ place = location := by
  rw [part_result]
  cases ht : statementTokens settings text with
  | error e => simp
  | ok tokens =>
    cases tokens with
    | nil => simp [statement]
    | cons first rest =>
      simp only [statement, Except.ok.injEq]
      by_cases hk : Instruction.isBlockKeyword first = true
      · rw [if_pos hk, blockLine_noBlockToEnd_iff]
        rfl
      · rw [if_neg hk]
        refine iff_of_false ?_ ?_
        · split
          · simp [emit]
          · exact instruction_ne_broken
        · rintro ⟨hbrace, -⟩
          rw [(List.cons.inj hbrace).1] at hk
          exact hk (by decide)

theorem line_noBlockToEnd_iff :
    (line settings location stack source).result = .error (.broken .noBlockToEnd place) ↔
      ∃ done text rest out, Line.statements (Line.clean source) = .ok (done ++ text :: rest) ∧
        (parts settings location source stack done).result = .ok out ∧
          statementTokens settings text = .ok ["\x7d"] ∧
            (parts settings location source stack done).stack = [] ∧ place = location := by
  unfold line
  cases ht : Line.statements (Line.clean source) with
  | error e => simp
  | ok texts => simp only [parts_eq_error_iff, part_noBlockToEnd_iff, Except.ok.injEq]

theorem unitLine_noBlockToEnd_iff {filename : String} {p : Progress} {number : Nat} :
    unitLine settings filename p number source = .error (.broken .noBlockToEnd place) ↔
      Directive.isDirective source = false ∧
        (line settings ⟨filename, number⟩ p.stack source).result =
          .error (.broken .noBlockToEnd place) := by
  unfold unitLine
  cases hd : Directive.isDirective source with
  | true =>
    refine iff_of_false (fun h => ?_) (by simp)
    simp only [if_true, directiveLine] at h
    split at h
    · cases h
    · obtain ⟨e, he⟩ := Except.mapError_eq_error h
      cases he
  | false =>
    simp only [Bool.false_eq_true, if_false, true_and]
    cases hr : (line settings ⟨filename, number⟩ p.stack source).result with
    | error e => simp
    | ok statements =>
      refine iff_of_false (fun h => ?_) (by simp)
      rcases Except.bind_eq_error_iff.mp h with hj | ⟨verdicts, -, hj⟩
      · obtain ⟨s, -, hs⟩ := Except.exists_of_mapM_eq_error hj
        unfold judge at hs
        split at hs
        · cases hs
        · split at hs
          · cases hs
          · unfold reject at hs
            split at hs <;> cases hs
      · cases hj

theorem unit_noBlockToEnd_iff {filename : String} {seed : Symbols} :
    unit settings filename source seed = .error (.broken .noBlockToEnd place) ↔
      unitLines settings filename { symbols := seed } 1 (sourceLines source) =
        .error (.broken .noBlockToEnd place) := by
  unfold unit
  simp only
  rw [Except.bind_eq_error_iff]
  refine or_iff_left ?_
  rintro ⟨p, -, h⟩
  rcases Except.bind_eq_error_iff.mp h with h | ⟨_, -, h⟩
  · rw [BlockStack.finish] at h
    split at h <;> cases h
  · cases h

end Stray

/-! ## Points of a run -/

section Points

variable (settings : Settings) (filename source : String) (seed : Symbols)

/-- A unit gets to a point with `stack` open: all of `before` is compiled, and of the line behind
it all of `done`, with `rest` to come. -/
def Stands (before done rest : List String) (stack : BlockStack) : Prop :=
  ∃ p after, sourceLines source = before ++ after ∧
    unitLines settings filename { symbols := seed } 1 before = .ok p ∧
      ((done = [] ∧ rest = [] ∧ stack = p.stack) ∨
        ∃ line later out, after = line :: later ∧ Directive.isDirective line = false ∧
          Line.statements (Line.clean line) = .ok (done ++ rest) ∧
            (parts settings ⟨filename, before.length + 1⟩ line p.stack done).result = .ok out ∧
              stack = (parts settings ⟨filename, before.length + 1⟩ line p.stack done).stack)

/-- The openers and braces in front of a point. -/
def turnsBefore (before done : List String) : List Turn :=
  turns settings filename 1 before ++
    done.filterMap (turn? settings ⟨filename, before.length + 1⟩)

variable {settings filename source seed} {before done rest : List String} {stack : BlockStack}

theorem tracks_of_stands (h : Stands settings filename source seed before done rest stack) :
    Tracks (turnsBefore settings filename before done) stack := by
  obtain ⟨p, after, -, hp, hpoint⟩ := h
  have htracks : Tracks (turns settings filename 1 before) p.stack :=
    unitLines_tracks Tracks.nil hp
  rcases hpoint with ⟨rfl, -, rfl⟩ | ⟨line, later, out, -, -, -, hout, rfl⟩
  · simpa [turnsBefore] using htracks
  · exact parts_tracks htracks hout

/-- The end of a unit is a point that it gets to when its lines compile. -/
theorem stands_end_iff :
    Stands settings filename source seed (sourceLines source) [] [] stack ↔
      ∃ p, unitLines settings filename { symbols := seed } 1 (sourceLines source) = .ok p ∧
        p.stack = stack := by
  constructor
  · rintro ⟨p, after, hlines, hp, ⟨-, -, rfl⟩ | ⟨line, later, out, rfl, -⟩⟩
    · exact ⟨p, hp, rfl⟩
    · simp at hlines
  · rintro ⟨p, hp, rfl⟩
    exact ⟨p, [], (List.append_nil _).symm, hp, Or.inl ⟨rfl, rfl, rfl⟩⟩

theorem openedAt_of_turn? {location : Location} {text : String} {block : Block}
    (h : turn? settings location text = some (.opens block)) : block.openedAt = location := by
  unfold turn? at h
  split at h
  · split at h
    · cases h
    · next tokens ht hne =>
      obtain ⟨b, hb, hblock⟩ := Option.map_eq_some_iff.mp h
      cases hblock
      unfold opened? at hb
      split at hb
      · split at hb
        · obtain ⟨kind, -, hkind⟩ := Option.bind_eq_some_iff.mp hb
          obtain ⟨⟨b', warnings⟩, hopen, rfl⟩ := Except.exists_of_toOption_map hkind
          exact Block.openedAt_of_ofHeader hopen
        · cases hb
      · cases hb
  · cases h

/-- A unit fails for want of a block at the first brace that it gets to with all openers before it
ended. -/
theorem unit_noBlockToEnd_iff_stands {place : Location} :
    unit settings filename source seed = .error (.broken .noBlockToEnd place) ↔
      ∃ before done text rest, Stands settings filename source seed before done (text :: rest) [] ∧
        statementTokens settings text = .ok ["\x7d"] ∧ place = ⟨filename, before.length + 1⟩ := by
  simp only [unit_noBlockToEnd_iff, unitLines_eq_error_iff, unitLine_noBlockToEnd_iff,
    line_noBlockToEnd_iff, Nat.add_comm 1]
  constructor
  · rintro ⟨before, line, after, p, hlines, hp, hd, done, text, rest, out, hstatements, hdone,
      htokens, hstack, hplace⟩
    exact ⟨before, done, text, rest, ⟨p, line :: after, hlines, hp, Or.inr ⟨line, after, out, rfl,
      hd, hstatements, hdone, hstack.symm⟩⟩, htokens, hplace⟩
  · rintro ⟨before, done, text, rest, ⟨p, after, hlines, hp, hpoint⟩, htokens, hplace⟩
    rcases hpoint with ⟨-, hrest, -⟩ | ⟨line, later, out, rfl, hd, hstatements, hdone, hstack⟩
    · cases hrest
    · exact ⟨before, line, later, p, hlines, hp, hd, done, text, rest, out, hstatements, hdone,
        htokens, hstack.symm, hplace⟩

/-- A unit that ends with blocks open names them. -/
theorem unit_of_stands_end
    (h : Stands settings filename source seed (sourceLines source) [] [] stack)
    (hopen : stack ≠ []) :
    unit settings filename source seed =
      .error (.broken (.unclosedBlocks (stack.shells.map fun b => (b.description, b.openedAt)))
        ⟨filename, max (sourceLines source).length 1⟩) := by
  obtain ⟨p, hp, rfl⟩ := stands_end_iff.mp h
  have hblocks : p.stack.shells.map (fun b => (b.description, b.openedAt)) =
      p.stack.reverse.map fun b => (b.description, b.openedAt) := by
    simp [BlockStack.shells, Block.description_shell, Block.openedAt_shell]
  have hfinish : p.stack.finish =
      .error (.unclosedBlocks (p.stack.shells.map fun b => (b.description, b.openedAt))) := by
    rw [BlockStack.finish, if_neg (by simpa using hopen), hblocks]
  rw [unit, hp]
  refine Except.bind_eq_error_iff.mpr (Or.inr ⟨p, rfl, Except.bind_eq_error_iff.mpr (Or.inl ?_)⟩)
  rw [hfinish]
  rfl

/-- **The open blocks are exactly the openers that were accepted and have no brace yet**, outermost
first and each with the place of its own line, at every point that a unit gets to.  So a brace
fails where all openers before it have theirs, a unit that ends with blocks open names exactly the
openers without a brace, and the openers and braces of a unit that compiles match. -/
theorem unit_blocks_exact (settings : Settings) (filename source : String) (seed : Symbols) :
    (∀ before done rest stack, Stands settings filename source seed before done rest stack →
      stack.shells = unmatched (turnsBefore settings filename before done)) ∧
    (∀ number text block, turn? settings ⟨filename, number⟩ text = some (.opens block) →
      block.openedAt = ⟨filename, number⟩) ∧
    (∀ place, unit settings filename source seed = .error (.broken .noBlockToEnd place) ↔
      ∃ before done text rest stack,
        Stands settings filename source seed before done (text :: rest) stack ∧
          statementTokens settings text = .ok ["\x7d"] ∧
            unmatched (turnsBefore settings filename before done) = [] ∧
              place = ⟨filename, before.length + 1⟩) ∧
    (∀ stack, Stands settings filename source seed (sourceLines source) [] [] stack → stack ≠ [] →
      unit settings filename source seed =
        .error (.broken (.unclosedBlocks
          ((unmatched (turns settings filename 1 (sourceLines source))).map fun b =>
            (b.description, b.openedAt))) ⟨filename, max (sourceLines source).length 1⟩)) ∧
    (∀ output, unit settings filename source seed = .ok output →
      Matched (turns settings filename 1 (sourceLines source)) ∧
        Stands settings filename source seed (sourceLines source) [] [] []) := by
  have hend : turnsBefore settings filename (sourceLines source) [] =
      turns settings filename 1 (sourceLines source) := List.append_nil _
  refine ⟨fun before done rest stack h => (tracks_of_stands h).blocks,
    fun number text block h => openedAt_of_turn? h, fun place => ?_, fun stack h hopen => ?_,
    fun output h => ?_⟩
  · rw [unit_noBlockToEnd_iff_stands]
    constructor
    · rintro ⟨before, done, text, rest, hstands, htokens, hplace⟩
      exact ⟨before, done, text, rest, [], hstands, htokens, (tracks_of_stands hstands).blocks.symm,
        hplace⟩
    · rintro ⟨before, done, text, rest, stack, hstands, htokens, hnone, hplace⟩
      rw [← (tracks_of_stands hstands).blocks, BlockStack.shells_eq_nil_iff] at hnone
      subst hnone
      exact ⟨before, done, text, rest, hstands, htokens, hplace⟩
  · rw [unit_of_stands_end h hopen, (tracks_of_stands h).blocks, hend]
  · obtain ⟨p, hp, hstack, -⟩ := unit_eq_ok_iff.mp h
    have hstands : Stands settings filename source seed (sourceLines source) [] [] [] :=
      stands_end_iff.mpr ⟨p, hp, hstack⟩
    refine ⟨?_, hstands⟩
    rw [← hend]
    exact (tracks_of_stands hstands).depth

/-- Two blocks opened on one line and one of them ended on the next: at the end the other is open,
and the report names it with its line. -/
theorem unit_blocks_exact_unended :
    unmatched (turns {} "main.mlogx" 1 ["namespace a \x7b; &for i of 0 1 \x7b", "\x7d"]) =
        [.scope "a" ⟨"main.mlogx", 1⟩] ∧
      unit {} "main.mlogx" "namespace a \x7b; &for i of 0 1 \x7b\n\x7d" {} =
        .error (.broken (.unclosedBlocks [("namespace a", ⟨"main.mlogx", 1⟩)])
          ⟨"main.mlogx", 2⟩) := by
  have hlines : sourceLines "namespace a \x7b; &for i of 0 1 \x7b\n\x7d" =
      ["namespace a \x7b; &for i of 0 1 \x7b", "\x7d"] := by decide +kernel
  have hturns : unmatched (turns {} "main.mlogx" 1
      ["namespace a \x7b; &for i of 0 1 \x7b", "\x7d"]) = [.scope "a" ⟨"main.mlogx", 1⟩] := by
    decide +kernel
  have hstands : Stands {} "main.mlogx" "namespace a \x7b; &for i of 0 1 \x7b\n\x7d" {}
      ["namespace a \x7b; &for i of 0 1 \x7b", "\x7d"] [] []
      [.scope "a" ⟨"main.mlogx", 1⟩] := by
    refine ⟨{ stack := [.scope "a" ⟨"main.mlogx", 1⟩] }, [], hlines, ?_, Or.inl ⟨rfl, rfl, rfl⟩⟩
    rfl
  refine ⟨hturns, ?_⟩
  have h := (unit_blocks_exact {} "main.mlogx" "namespace a \x7b; &for i of 0 1 \x7b\n\x7d"
    {}).2.2.2.1 [.scope "a" ⟨"main.mlogx", 1⟩]
  rw [hlines, hturns] at h
  exact h hstands (by simp)

end Points

end Mlog.Compile
