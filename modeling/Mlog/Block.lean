import Mlog.Fault
import Mlog.Instruction.Overload
import Mlog.Number.Read
import Mlog.Statement

/-!
# Blocks

The blocks that are open at a point of a unit, innermost first.  Every statement that is compiled
inside them passes through all of them on its way out: a scope lets it through, a conditional lets
it through or drops it, and a loop keeps it back.  When a loop ends it releases what it kept, once
for every element with the loop variable bound to it, and these copies pass through the blocks
around it in turn.
-/
set_option autoImplicit false

namespace Mlog

/-- An open block. -/
inductive Block where
  | scope (name : String) (openedAt : Location)
  | loop (name : String) (elements : List String) (buffer : List Statement) (openedAt : Location)
  | conditional (enabled : Bool) (openedAt : Location)
  deriving DecidableEq, Repr

namespace Block

/-- Where the block was opened. -/
def openedAt : Block → Location
  | scope _ l | loop _ _ _ l | conditional _ l => l

/-- The block as reports name it. -/
def description : Block → String
  | scope name _ => "namespace " ++ name
  | loop name _ _ _ => "&for " ++ name
  | conditional enabled _ => "&if (" ++ (if enabled then "true" else "false") ++ ")"

/-- The name that a scope puts in front of variables. -/
def scopeName? : Block → Option String
  | scope name _ => some name
  | _ => none

/-- The variable that a loop binds. -/
def loopVariable? : Block → Option String
  | loop name _ _ _ => some name
  | _ => none

/-- Passes statements through a block: the block afterwards, and what it lets through. -/
def pass (b : Block) (statements : List Statement) : Block × List Statement :=
  match b with
  | scope .. => (b, statements)
  | loop name elements buffer openedAt =>
    (loop name elements (buffer ++ statements) openedAt, [])
  | conditional enabled _ => (b, if enabled then statements else [])

@[simp] theorem pass_nil (b : Block) : b.pass [] = (b, []) := by
  cases b <;> simp [pass]

/-- Statements may pass through a block together or one after the other. -/
theorem pass_append (b : Block) (xs ys : List Statement) :
    b.pass (xs ++ ys) =
      (((b.pass xs).1.pass ys).1, (b.pass xs).2 ++ ((b.pass xs).1.pass ys).2) := by
  cases b with
  | scope => rfl
  | loop => simp [pass]
  | conditional enabled => cases enabled <;> rfl

/-- What a block releases when it ends: a loop, its statements once for each element. -/
def release : Block → List Statement
  | loop name elements buffer _ =>
    elements.flatMap fun value => buffer.map (Statement.bind name value)
  | _ => []

/-! ## Opening blocks -/

/-- The bound below which whole numbers of 32 bits lie. -/
def boundLimit : Nat := Number.twoTo 32

/-- Reads a bound of a loop. -/
def parseBound (text : String) : Except Fault Nat :=
  match Number.whole? boundLimit text with
  | some n => .ok n
  | none => .error (.badLoopBound text)

/-- The whole numbers from `lower` to `upper`, both included. -/
def range (lower upper : Nat) : List String :=
  (List.range (upper + 1 - lower)).map fun k => toString (lower + k)

/-- The elements of a loop over a range. -/
def rangeElements (lowerText upperText : String) : Except Fault (List String) := do
  let lower ← parseBound lowerText
  let upper ← parseBound upperText
  if upper < lower then throw (.loopBoundsSwapped lower upper)
  else if maxLoopSpan < upper - lower then throw (.loopTooLong lower upper)
  else return range lower upper

/-- The variable and the elements of a loop header: `in` with two bounds, or `of` with at least one
element. -/
def loopParts : List String → Except Fault (String × List String)
  | _ :: name :: mode :: rest =>
    if mode == "in" then
      match rest with
      | [lower, upper] => do return (name, ← rangeElements lower upper)
      | _ => .error .malformedLoop
    else if mode == "of" then
      if rest.isEmpty then .error .emptyLoop else .ok (name, rest)
    else .error .malformedLoop
  | _ => .error .malformedLoop

/-- The truth of a condition: `true`, `false`, or whether a number is not zero. -/
def condition? (text : String) : Option Bool :=
  if text == "true" then some true
  else if text == "false" then some false
  else (Number.whole? (Number.twoTo 64) text).map (· != 0)

/-- Opens a block.  `tokens` is its header without the brace.  A condition that is no truth value
keeps its block, with a warning. -/
def ofHeader (kind : BlockKind) (tokens : List String) (location : Location) :
    Except Fault (Block × List Diagnostic) :=
  match kind with
  | .scope =>
    match tokens[1]? with
    | some name => .ok (scope name location, [])
    | none => .error .missingScopeName
  | .loop => do
    let (name, elements) ← loopParts tokens
    return (loop name elements [] location, [])
  | .conditional =>
    let text := tokens[1]?.getD ""
    match condition? text with
    | some enabled => .ok (conditional enabled location, [])
    | none => .ok (conditional true location, [⟨.unclearCondition text, some location⟩])
  | .close => .error .closeOpensBlock

end Block

/-- The open blocks, innermost first. -/
abbrev BlockStack := List Block

namespace BlockStack

/-- Passes statements through every open block, innermost first: the blocks afterwards, and what
comes out. -/
def pass : BlockStack → List Statement → BlockStack × List Statement
  | [], statements => ([], statements)
  | b :: outer, statements =>
    let (b', through) := b.pass statements
    let (outer', out) := pass outer through
    (b' :: outer', out)

@[simp] theorem pass_nil (stack : BlockStack) : pass stack [] = (stack, []) := by
  induction stack with
  | nil => rfl
  | cons b outer ih => simp [pass, ih]

/-- Statements may pass through the open blocks together or one after the other. -/
theorem pass_append (stack : BlockStack) (xs ys : List Statement) :
    pass stack (xs ++ ys) =
      ((pass (pass stack xs).1 ys).1, (pass stack xs).2 ++ (pass (pass stack xs).1 ys).2) := by
  induction stack generalizing xs ys with
  | nil => rfl
  | cons b outer ih => simp [pass, Block.pass_append, ih]

/-- Opens the block of a header inside the open ones, with the warnings of the header.  A header at
fault leaves the open blocks as they are. -/
def enter (stack : BlockStack) (kind : BlockKind) (header : List String) (location : Location) :
    BlockStack × Except Fault (List Diagnostic) :=
  match Block.ofHeader kind header location with
  | .ok (block, warnings) => (block :: stack, .ok warnings)
  | .error fault => (stack, .error fault)

/-- Ends the innermost block.  What it releases passes through the blocks around it. -/
def close : BlockStack → Except Fault (BlockStack × List Statement)
  | [] => .error .noBlockToEnd
  | b :: outer => .ok (pass outer b.release)

/-- The variables of the open loops, outermost first. -/
def loopVariables (stack : BlockStack) : List String :=
  (stack.filterMap Block.loopVariable?).reverse

/-- The names of the open scopes, outermost first. -/
def scopes (stack : BlockStack) : List String := (stack.filterMap Block.scopeName?).reverse

/-- A variable's name with the open scopes in front: `x` inside `a` inside `b` is `_b_a_x`.  A name
that begins with `_` is reserved or has its scopes already, and one that begins with `$` is bound
later; both stay as they are.  References in the names of scopes are delimited, so that they do not
run into what follows. -/
def qualify (stack : BlockStack) (name : String) : String :=
  let scopes := stack.scopes
  let first := name.toList.head?
  if scopes.isEmpty || first == some '_' || first == some '$' then name
  else "_" ++ "_".intercalate (scopes.map Reference.delimit) ++ "_" ++ name

/-- Checks that no block is open at the end of a unit. -/
def finish (stack : BlockStack) : Except Fault Unit :=
  if stack.isEmpty then .ok ()
  else .error (.unclosedBlocks (stack.reverse.map fun b => (b.description, b.openedAt)))

end BlockStack

end Mlog
