import Mlog.Proofs.Compile.Entry
import Mlog.Proofs.Instruction.Fit

/-!
# How statements nest

A statement of a line that compiles does one of four things: it posts what it becomes to the open
blocks, it is empty, it opens the block of a header, or it ends a block (`part_cases`).  Which of
these it is can be read off its first token.  So the nesting of lines is counted without compiling
them (`depth`), and the number of open blocks follows the count.
-/
set_option autoImplicit false

namespace Mlog.Compile

/-! ## What a statement does -/

section Part

variable {settings : Settings} {location : Location} {source text : String} {stack : BlockStack}
  {out : List Statement}

/-- What block syntax that compiles can do: end a block, or open the one of a header. -/
theorem blockLine_ok {first : String} {rest : List String}
    (h : (blockLine stack (first :: rest) location).result = .ok out) :
    (first = "\x7d" ∧ rest = [] ∧
      stack.close = .ok ((blockLine stack (first :: rest) location).stack, out)) ∨
    first ≠ "\x7d" ∧ ∃ header o kind block warnings, rest = header ++ ["\x7b"] ∧
      Instruction.resolve (first :: header) = .ok o ∧ o.block = some kind ∧
        Block.ofHeader kind (first :: header) location = .ok (block, warnings) ∧
          (blockLine stack (first :: rest) location).stack = block :: stack ∧ out = [] := by
  unfold blockLine at h ⊢
  by_cases hclose : first = "\x7d"
  · subst hclose
    simp only [List.head?_cons, beq_self_eq_true, if_true, List.drop_succ_cons,
      List.drop_zero] at h ⊢
    obtain ⟨hrest, hc⟩ := closeBlock_ok h
    exact Or.inl ⟨trivial, hrest, hc⟩
  · refine Or.inr ⟨hclose, ?_⟩
    have hfirst : ((first :: rest).head? == some "\x7d") = false := by simpa using hclose
    simp only [hfirst, Bool.false_eq_true, if_false] at h ⊢
    split at h
    · next hbrace =>
      rw [if_pos hbrace]
      obtain ⟨o, kind, block, warnings, hr, hkind, hopen, hstack, hout⟩ := openBlock_ok h
      obtain ⟨before, hbefore⟩ := List.getLast?_eq_some_iff.mp (beq_iff_eq.mp hbrace)
      rw [hbefore, List.dropLast_concat] at hr hopen hstack ⊢
      -- a header that resolves has a mnemonic, so the brace is not all there is
      cases before with
      | nil => cases hr
      | cons first' header =>
        obtain ⟨rfl, hrest⟩ := List.cons.inj hbefore
        exact ⟨header, o, kind, block, warnings, hrest, hr, hkind, hopen, hstack, hout⟩
    · cases h

/-- **What a statement that compiles can do**: post what it becomes, nothing, open a block, or end
one. -/
theorem part_cases (h : (part settings location source stack text).result = .ok out) :
    (∃ e, entryOf? settings location source stack text = some e ∧
      stack.pass e.statements = ((part settings location source stack text).stack, out)) ∨
    (statementTokens settings text = .ok [] ∧
      (part settings location source stack text).stack = stack ∧ out = []) ∨
    (statementTokens settings text = .ok ["\x7d"] ∧
      stack.close = .ok ((part settings location source stack text).stack, out)) ∨
    ∃ first header o kind block warnings,
      statementTokens settings text = .ok (first :: (header ++ ["\x7b"])) ∧ first ≠ "\x7d" ∧
        Instruction.isBlockKeyword first = true ∧
          Instruction.resolve (first :: header) = .ok o ∧ o.block = some kind ∧
            Block.ofHeader kind (first :: header) location = .ok (block, warnings) ∧
              (part settings location source stack text).stack = block :: stack ∧ out = [] := by
  cases he : entryOf? settings location source stack text with
  | some e =>
    refine Or.inl ⟨e, rfl, ?_⟩
    rw [part_of_entry he] at h ⊢
    rw [← entryOf?_stack he]
    exact e.pass_of_compile settings.options h
  | none =>
    refine Or.inr ?_
    rw [part_result] at h
    unfold entryOf? at he
    cases ht : statementTokens settings text with
    | error error =>
      rw [ht] at h
      cases h
    | ok tokens =>
      have hstack : (part settings location source stack text).stack =
          (statement settings.options stack tokens ⟨location.filename, location.line, source, text,
            Reference.fill (constantText settings.constants) text⟩).stack := by
        unfold statementTokens at ht
        simp only [part, Reference.substitute, ht]
      simp only [ht] at h he
      cases tokens with
      | nil => exact Or.inl ⟨rfl, hstack, (Except.ok.inj h).symm⟩
      | cons first rest =>
        refine Or.inr ?_
        have hk : Instruction.isBlockKeyword first = true := by
          cases hk : Instruction.isBlockKeyword first with
          | true => rfl
          | false => simp [hk] at he
        simp only [statement, hk, if_true, Provenance.location] at h hstack
        rw [hstack]
        rcases blockLine_ok h with ⟨rfl, rfl, hclose⟩ |
          ⟨hne, header, o, kind, block, warnings, rfl, hr, hkind, hopen, hblocks, hout⟩
        · exact Or.inl ⟨rfl, hclose⟩
        · exact Or.inr ⟨first, header, o, kind, block, warnings, rfl, hne, hk, hr, hkind, hopen,
            hblocks, hout⟩

end Part

/-! ## Counting -/

/-- What a statement is to the blocks. -/
inductive Bracket where
  | opens
  | closes
  deriving DecidableEq, Repr

/-- Whether a statement opens or ends a block. -/
def bracket? (settings : Settings) (text : String) : Option Bracket :=
  match statementTokens settings text with
  | .ok (first :: _) =>
    if Instruction.isBlockKeyword first then
      if first == "\x7d" then some .closes else some .opens
    else none
  | _ => none

theorem bracket?_of_entry {settings : Settings} {location : Location} {source text : String}
    {stack : BlockStack} {e : Entry} (h : entryOf? settings location source stack text = some e) :
    bracket? settings text = none := by
  unfold entryOf? at h
  unfold bracket?
  cases ht : statementTokens settings text with
  | error error => rfl
  | ok tokens =>
    rw [ht] at h
    cases tokens with
    | nil => rfl
    | cons first rest =>
      cases hk : Instruction.isBlockKeyword first with
      | false => simp [hk]
      | true => simp [hk] at h

/-- The brackets of a line, in order. -/
def lineBrackets (settings : Settings) (line : String) : List Bracket :=
  match Line.statements (Line.clean line) with
  | .ok texts => texts.flatMap fun text => (bracket? settings text).toList
  | .error _ => []

/-- The number of blocks that are open behind brackets, counted from those open before them.  There
is none if a bracket ends a block that was not counted. -/
def depth : Nat → List Bracket → Option Nat
  | n, [] => some n
  | n, .opens :: rest => depth (n + 1) rest
  | 0, .closes :: _ => none
  | n + 1, .closes :: rest => depth n rest

theorem depth_append (n : Nat) (xs ys : List Bracket) :
    depth n (xs ++ ys) = (depth n xs).bind fun m => depth m ys := by
  induction xs generalizing n with
  | nil => rfl
  | cons x xs ih =>
    cases x with
    | opens => exact ih (n + 1)
    | closes =>
      cases n with
      | zero => rfl
      | succ n => exact ih n

/-- Lines whose blocks are opened and ended among themselves. -/
def Balanced (settings : Settings) (lines : List String) : Prop :=
  depth 0 (lines.flatMap (lineBrackets settings)) = some 0

instance (settings : Settings) (lines : List String) : Decidable (Balanced settings lines) :=
  inferInstanceAs (Decidable (_ = _))

/-- A unit compiles when its lines do and all their blocks are ended. -/
theorem unit_eq_ok_iff {settings : Settings} {filename source : String} {seed : Symbols}
    {output : Output} :
    unit settings filename source seed = .ok output ↔
      ∃ p, unitLines settings filename { symbols := seed } 1 (sourceLines source) = .ok p ∧
        p.stack = [] ∧
          output = ⟨p.statements, p.diagnostics ++ p.symbols.diagnose, p.header, p.symbols⟩ := by
  unfold unit
  constructor
  · intro h
    obtain ⟨p, hp, h⟩ := Except.bind_eq_ok_iff.mp h
    obtain ⟨_, hfinish, h⟩ := Except.bind_eq_ok_iff.mp h
    refine ⟨p, hp, ?_, (Except.ok.inj h).symm⟩
    rw [Except.mapError_eq_ok_iff, BlockStack.finish] at hfinish
    split at hfinish
    · next hempty => exact List.isEmpty_iff.mp hempty
    · cases hfinish
  · rintro ⟨p, hp, hstack, rfl⟩
    refine Except.bind_eq_ok_iff.mpr ⟨p, hp, Except.bind_eq_ok_iff.mpr ⟨(), ?_, rfl⟩⟩
    rw [hstack]
    rfl

end Mlog.Compile
