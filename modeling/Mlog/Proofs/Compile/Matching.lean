import Mlog.Proofs.Compile.BaseDialect
import Mlog.Proofs.Compile.Nesting

/-!
# Openers and the braces that match them

The compiler finds the open blocks by pushing and popping.  Which blocks ought to be open is a
question about the source alone: those whose opener was accepted and has no brace that matches it.
An opener is unmatched if what follows it never ends a block more than it opens (`unmatched`), and
this is read off the list of openers and braces (`turns`), without a stack.

`Tracks` says that the two agree.  One statement keeps it up, whatever it is (`part_tracks`), and
so do the lines of a unit (`unitLines_tracks`).
-/
set_option autoImplicit false

namespace Mlog

/-- The block without what it keeps back. -/
def Block.shell : Block → Block
  | scope name openedAt => scope name openedAt
  | loop name elements _ openedAt => loop name elements [] openedAt
  | conditional enabled openedAt => conditional enabled openedAt

namespace Block

theorem shell_of_held {b : Block} (h : b.held = []) : b.shell = b := by
  cases b with
  | scope => rfl
  | loop name elements buffer openedAt =>
    obtain rfl : buffer = [] := h
    rfl
  | conditional => rfl

theorem shell_pass (b : Block) (statements : List Statement) :
    (b.pass statements).1.shell = b.shell := by
  cases b <;> rfl

theorem description_shell (b : Block) : b.shell.description = b.description := by
  cases b <;> rfl

theorem openedAt_of_ofHeader {kind : BlockKind} {header : List String} {location : Location}
    {block : Block} {warnings : List Diagnostic}
    (h : ofHeader kind header location = .ok (block, warnings)) : block.openedAt = location := by
  cases kind with
  | scope =>
    simp only [ofHeader] at h
    split at h
    · cases h
      rfl
    · cases h
  | loop =>
    obtain ⟨loop, -, h⟩ := Except.bind_eq_ok_iff.mp h
    cases h
    rfl
  | conditional =>
    simp only [ofHeader] at h
    split at h
    · cases h
      rfl
    · cases h
      rfl
  | close => cases h

theorem openedAt_shell (b : Block) : b.shell.openedAt = b.openedAt := by
  cases b <;> rfl

end Block

namespace BlockStack

/-- The open blocks without what they keep back, outermost first. -/
def shells (stack : BlockStack) : List Block := (stack.map Block.shell).reverse

theorem shells_cons (b : Block) (outer : BlockStack) :
    shells (b :: outer) = outer.shells ++ [b.shell] := by
  simp [shells]

theorem shells_pass (stack : BlockStack) (statements : List Statement) :
    (stack.pass statements).1.shells = stack.shells ∧
      (stack.pass statements).1.length = stack.length := by
  induction stack generalizing statements with
  | nil => exact ⟨rfl, rfl⟩
  | cons b outer ih =>
    obtain ⟨hshells, hlength⟩ := ih (b.pass statements).2
    constructor
    · rw [pass, shells_cons, shells_cons, hshells, Block.shell_pass]
    · rw [pass, List.length_cons, List.length_cons, hlength]

theorem shells_eq_nil_iff {stack : BlockStack} : stack.shells = [] ↔ stack = [] := by
  simp [shells]

end BlockStack

namespace Compile

/-! ## Openers and braces of a source -/

/-- What a statement does to the open blocks. -/
inductive Turn where
  | opens (block : Block)
  | closes
  deriving DecidableEq, Repr

def Turn.bracket : Turn → Bracket
  | opens _ => .opens
  | closes => .closes

/-- The block that a header with its brace opens, if the header is accepted. -/
def opened? (location : Location) (tokens : List String) : Option Block :=
  if tokens.getLast? = some "\x7b" then
    match Instruction.resolve tokens.dropLast with
    | .ok o => o.block.bind fun kind =>
        (Block.ofHeader kind tokens.dropLast location).toOption.map Prod.fst
    | .error _ => none
  else none

/-- What a statement of a line does to the open blocks: a brace by itself ends one, and a header
that is accepted opens one. -/
def turn? (settings : Settings) (location : Location) (text : String) : Option Turn :=
  match statementTokens settings text with
  | .ok tokens =>
    if tokens = ["\x7d"] then some .closes else (opened? location tokens).map .opens
  | .error _ => none

/-- The openers and braces of a line.  A directive has none. -/
def lineTurns (settings : Settings) (location : Location) (line : String) : List Turn :=
  if Directive.isDirective line then []
  else match Line.statements (Line.clean line) with
    | .ok texts => texts.filterMap (turn? settings location)
    | .error _ => []

/-- The openers and braces of lines, counted from a line number on. -/
def turns (settings : Settings) (filename : String) : Nat → List String → List Turn
  | _, [] => []
  | number, line :: rest =>
    lineTurns settings ⟨filename, number⟩ line ++ turns settings filename (number + 1) rest

/-- The openers that no brace matches, in order.  The brace of an opener would be the first behind
it that ends a block more than were opened in between. -/
def unmatched : List Turn → List Block
  | [] => []
  | .opens block :: rest =>
    if (depth 0 (rest.map Turn.bracket)).isSome then block :: unmatched rest else unmatched rest
  | .closes :: rest => unmatched rest

/-- Openers and braces that match each other. -/
def Matched (ts : List Turn) : Prop := depth 0 (ts.map Turn.bracket) = some 0

instance (ts : List Turn) : Decidable (Matched ts) := inferInstanceAs (Decidable (_ = _))

/-- How many blocks that were opened before are ended here. -/
def strays : List Turn → Nat
  | [] => 0
  | .opens _ :: rest => strays rest - 1
  | .closes :: rest => strays rest + 1

/-- Braces without an opener end blocks that were open before, and openers without a brace leave
theirs open. -/
theorem depth_eq (ts : List Turn) (n : Nat) :
    depth n (ts.map Turn.bracket) =
      if strays ts ≤ n then some (n - strays ts + (unmatched ts).length) else none := by
  induction ts generalizing n with
  | nil => simp [depth, strays, unmatched]
  | cons t rest ih =>
    cases t with
    | closes =>
      cases n with
      | zero => simp [Turn.bracket, depth, strays]
      | succ n =>
        simp only [List.map_cons, Turn.bracket, depth, ih, strays, unmatched,
          Nat.add_le_add_iff_right, Nat.add_sub_add_right]
    | opens block =>
      simp only [List.map_cons, Turn.bracket, depth, ih, strays, unmatched]
      -- the opener is matched if the rest ends a block that it did not open
      cases hs : strays rest with
      | zero => simp; omega
      | succ k => simp [Nat.add_sub_add_right]

theorem unmatched_opens (ts : List Turn) (block : Block) :
    unmatched (ts ++ [.opens block]) = unmatched ts ++ [block] := by
  induction ts with
  | nil => rfl
  | cons t rest ih =>
    cases t with
    | closes => exact ih
    | opens b =>
      have hdepth : (depth 0 ((rest ++ [Turn.opens block]).map Turn.bracket)).isSome =
          (depth 0 (rest.map Turn.bracket)).isSome := by
        rw [List.map_append, depth_append]
        cases depth 0 (rest.map Turn.bracket) <;> rfl
      simp only [List.cons_append, unmatched, hdepth, ih]
      split <;> rfl

/-- A brace matches the innermost opener that is unmatched. -/
theorem unmatched_closes (ts : List Turn) :
    unmatched (ts ++ [.closes]) = (unmatched ts).dropLast := by
  induction ts with
  | nil => rfl
  | cons t rest ih =>
    cases t with
    | closes => exact ih
    | opens b =>
      have hlength := depth_eq rest 0
      simp only [List.cons_append, unmatched, List.map_append, depth_append, ih]
      cases hd : depth 0 (rest.map Turn.bracket) with
      | none => rfl
      | some n =>
        rw [hd] at hlength
        have hn : n = (unmatched rest).length := by
          split at hlength
          · simpa using hlength
          · cases hlength
        cases n with
        | zero => simp [List.length_eq_zero_iff.mp hn.symm, Turn.bracket, depth]
        | succ n =>
          have hne : unmatched rest ≠ [] := List.ne_nil_of_length_pos (by omega)
          simp [Turn.bracket, depth, List.dropLast_cons_of_ne_nil hne]

/-! ## The open blocks of a run -/

/-- The open blocks are the unmatched openers, and no brace was without its opener. -/
structure Tracks (ts : List Turn) (stack : BlockStack) : Prop where
  blocks : stack.shells = unmatched ts
  depth : depth 0 (ts.map Turn.bracket) = some stack.length

namespace Tracks

variable {ts : List Turn} {stack stack' : BlockStack} {out : List Statement}

theorem nil : Tracks [] [] := ⟨rfl, rfl⟩

theorem pass (h : Tracks ts stack) {statements : List Statement}
    (hp : stack.pass statements = (stack', out)) : Tracks ts stack' := by
  obtain ⟨hshells, hlength⟩ := stack.shells_pass statements
  rw [hp] at hshells hlength
  exact ⟨hshells.trans h.blocks, h.depth.trans (congrArg some hlength.symm)⟩

theorem opens (h : Tracks ts stack) {block : Block} (hheld : block.held = []) :
    Tracks (ts ++ [.opens block]) (block :: stack) := by
  constructor
  · rw [BlockStack.shells_cons, h.blocks, Block.shell_of_held hheld, unmatched_opens]
  · rw [List.map_append, depth_append, h.depth]
    rfl

theorem closes (h : Tracks ts stack) (hc : stack.close = .ok (stack', out)) :
    Tracks (ts ++ [.closes]) stack' := by
  cases stack with
  | nil => cases hc
  | cons b outer =>
    have houter : Tracks (ts ++ [.closes]) outer := by
      constructor
      · have hblocks := h.blocks
        rw [BlockStack.shells_cons] at hblocks
        rw [unmatched_closes, ← hblocks, List.dropLast_concat]
      · rw [List.map_append, depth_append, h.depth]
        rfl
    exact houter.pass (Except.ok.inj hc)

end Tracks

section Run

variable {settings : Settings} {location : Location} {source text : String} {stack : BlockStack}
  {ts : List Turn} {out : List Statement}

/-- A label or an instruction is no opener and no brace. -/
theorem turn?_of_entry {e : Entry} (h : entryOf? settings location source stack text = some e) :
    turn? settings location text = none := by
  have hne : e.tokens ≠ ["\x7d"] := by
    intro heq
    have hkeyword := e.noKeyword
    rw [(List.cons.inj heq).1] at hkeyword
    exact absurd hkeyword (by decide)
  have hopened : opened? location e.tokens = none := by
    unfold opened?
    split
    · cases hr : Instruction.resolve e.tokens.dropLast with
      | error r => rfl
      | ok o =>
        -- the header begins like the statement, so its overload is of no block keyword
        cases hrest : e.rest with
        | nil =>
          rw [Entry.tokens, hrest] at hr
          cases hr
        | cons token rest =>
          rw [Entry.tokens, hrest, List.dropLast_cons_cons] at hr
          simp [Instruction.block_of_resolve e.noKeyword hr]
    · rfl
  rw [turn?, (of_entryOf? h).1]
  simp [hne, hopened]

/-- One statement keeps track of the open blocks, whatever it is. -/
theorem part_tracks (h : Tracks ts stack)
    (hr : (part settings location source stack text).result = .ok out) :
    Tracks (ts ++ (turn? settings location text).toList)
      (part settings location source stack text).stack := by
  rcases part_cases hr with ⟨e, he, hpass⟩ | ⟨ht, hstack, -⟩ | ⟨ht, hclose⟩ |
    ⟨first, header, o, kind, block, warnings, ht, hne, -, hresolve, hkind, hopen, hstack, -⟩
  · rw [turn?_of_entry he, Option.toList_none, List.append_nil]
    exact h.pass hpass
  · have hturn : turn? settings location text = none := by simp [turn?, ht, opened?]
    rw [hturn, hstack, Option.toList_none, List.append_nil]
    exact h
  · have hturn : turn? settings location text = some .closes := by simp [turn?, ht]
    rw [hturn, Option.toList_some]
    exact h.closes hclose
  · have hturn : turn? settings location text = some (.opens block) := by
      have hdrop : (first :: (header ++ ["\x7b"])).dropLast = first :: header := by
        rw [← List.cons_append, List.dropLast_concat]
      have hlast : (first :: (header ++ ["\x7b"])).getLast? = some "\x7b" := by
        rw [← List.cons_append, List.getLast?_concat]
      simp [turn?, ht, hne, opened?, hdrop, hlast, hresolve, hkind, hopen, Except.toOption]
    rw [hturn, hstack, Option.toList_some]
    exact h.opens (Block.held_of_ofHeader hopen)

theorem parts_tracks {texts : List String} (h : Tracks ts stack)
    (hr : (parts settings location source stack texts).result = .ok out) :
    Tracks (ts ++ texts.filterMap (turn? settings location))
      (parts settings location source stack texts).stack := by
  induction texts generalizing ts stack out with
  | nil => simpa [parts] using h
  | cons text texts ih =>
    obtain ⟨first, others, hfirst, hothers, -⟩ := (parts_cons_eq_ok_iff ..).mp hr
    rw [parts_cons_stack settings location source hfirst]
    have hsplit : (text :: texts).filterMap (turn? settings location) =
        (turn? settings location text).toList ++ texts.filterMap (turn? settings location) := by
      rw [List.filterMap_cons]
      cases turn? settings location text <;> rfl
    rw [hsplit, ← List.append_assoc]
    exact ih (part_tracks h hfirst) hothers

variable {filename : String} {p q : Progress} {number : Nat}

theorem unitLine_tracks (h : Tracks ts p.stack)
    (hq : unitLine settings filename p number source = .ok q) :
    Tracks (ts ++ lineTurns settings ⟨filename, number⟩ source) q.stack := by
  rcases unitLine_cases hq with ⟨hd, hstack, -⟩ | ⟨hd, statements, verdicts, hr, -, rfl⟩
  · rw [lineTurns, if_pos hd, List.append_nil, hstack]
    exact h
  · rw [lineTurns, if_neg (by simp [hd]), Progress.stack_record]
    unfold line at hr ⊢
    cases ht : Line.statements (Line.clean source) with
    | error e =>
      rw [ht] at hr
      cases hr
    | ok texts =>
      rw [ht] at hr
      exact parts_tracks h hr

theorem unitLines_tracks {lines : List String} (h : Tracks ts p.stack)
    (hq : unitLines settings filename p number lines = .ok q) :
    Tracks (ts ++ turns settings filename number lines) q.stack := by
  induction lines generalizing ts p number with
  | nil =>
    obtain rfl : p = q := Except.ok.inj hq
    simpa [turns] using h
  | cons line lines ih =>
    obtain ⟨mid, hmid, hq⟩ := Except.bind_eq_ok_iff.mp hq
    rw [turns, ← List.append_assoc]
    exact ih (unitLine_tracks h hmid) hq

end Run

end Compile

end Mlog
