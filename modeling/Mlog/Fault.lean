import Mlog.Diagnostic
import Mlog.Header
import Mlog.Line.Split

/-!
# What ends a unit

A unit is given up when its structure is broken, when a line is rejected in strict mode, or when
the instruction set contradicts itself.  The last kind is a fault of the compiler and not of the
unit.
-/
set_option autoImplicit false

namespace Mlog

/-- A broken structure. -/
inductive Fault where
  | unclosedString (error : Line.UnclosedString)
  | directive (error : DirectiveError)
  | directiveInBlock
  /-- text behind a closing brace -/
  | textAfterClose (text : String)
  /-- a block construct without its opening brace -/
  | missingBrace (text : String)
  /-- a block construct that is not well formed -/
  | badHeader (rejection : Rejection)
  | closeOpensBlock
  | noBlockToEnd
  | missingScopeName
  | malformedLoop
  | badLoopBound (text : String)
  | loopBoundsSwapped (lower upper : Nat)
  | loopTooLong (lower upper : Nat)
  | emptyLoop
  /-- the blocks still open at the end, outermost first -/
  | unclosedBlocks (blocks : List (String × Location))
  deriving DecidableEq, Repr

/-- The greatest distance between the bounds of a loop. -/
def maxLoopSpan : Nat := 200

/-- The text of a fault. -/
def Fault.message : Fault → String
  | unclosedString error => error.message
  | directive error => error.message
  | directiveInBlock => "Directives must appear outside blocks"
  | textAfterClose text => "Unexpected \"" ++ text ++ "\" after \"\x7d\""
  | missingBrace text => "Expected \"\x7b\" at the end of \"" ++ text ++ "\""
  | badHeader rejection => rejection.message
  | closeOpensBlock => "\"\x7d\" cannot open a block"
  | noBlockToEnd => "No block to end"
  | missingScopeName => "Missing namespace name"
  | malformedLoop => "Malformed &for loop"
  | badLoopBound text => "Loop bound \"" ++ text ++ "\" is not a non-negative integer"
  | loopBoundsSwapped lower upper =>
    "Loop lower bound " ++ toString lower ++ " is greater than upper bound " ++ toString upper
  | loopTooLong lower upper =>
    "Loop range " ++ toString lower ++ "..=" ++ toString upper ++ " is too large: at most " ++
      toString (maxLoopSpan + 1) ++ " iterations are allowed"
  | emptyLoop => "&for ... of needs at least one element"
  | unclosedBlocks blocks =>
    "Missing \"\x7d\" for " ++ toString blocks.length ++ " open block(s):" ++
      String.join (blocks.map fun (description, location) =>
        "\n  " ++ description ++ " opened at " ++ location.text)

/-- A contradiction in the instruction set. -/
inductive InternalFault where
  | expandsToExtended (line expansion : List String)
  | expandsToUnknown (line expansion : List String) (rejection : Rejection)
  | keywordIsInstruction (keyword : String)
  deriving DecidableEq, Repr

/-- The text of a contradiction. -/
def InternalFault.message : InternalFault → String
  | expandsToExtended line expansion =>
    "\"" ++ " ".intercalate line ++ "\" expanded to another extended instruction \"" ++
      " ".intercalate expansion ++ "\""
  | expandsToUnknown line expansion rejection =>
    "\"" ++ " ".intercalate line ++ "\" expanded to \"" ++ " ".intercalate expansion ++
      "\", which does not resolve: " ++ rejection.message
  | keywordIsInstruction keyword =>
    "\"" ++ keyword ++ "\" is a block keyword but resolved to an instruction"

/-- Why a unit was given up. -/
inductive CompileError where
  | broken (fault : Fault) (location : Location)
  | rejected (rejection : Rejection) (location : Location) (source : String)
  | internal (fault : InternalFault) (location : Location)
  deriving DecidableEq, Repr

namespace CompileError

/-- The place of the error. -/
def location : CompileError → Location
  | broken _ l | rejected _ l _ | internal _ l => l

/-- What went wrong, without the place. -/
def message : CompileError → String
  | broken fault _ => fault.message
  | rejected rejection _ _ => rejection.message
  | internal fault _ => fault.message

/-- The error as it is printed. -/
def text : CompileError → String
  | broken fault l => fault.message ++ "\n  --> " ++ l.text
  | rejected rejection l source => rejection.message ++ "\n  --> " ++ l.text ++ "\n  " ++ source
  | internal fault l =>
    "internal compiler error: " ++ fault.message ++ "\n  --> " ++ l.text ++
      "\nThis is a bug in the compiler, not in your code. Please file an issue with the line above."

end CompileError

end Mlog
