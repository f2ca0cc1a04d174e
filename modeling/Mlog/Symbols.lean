import Mlog.Dict
import Mlog.Diagnostic
import Mlog.Instruction.Resolve
import Mlog.Statement
import Mlog.Ty.Shape

/-!
# Symbols

What a unit defines, reads and jumps to, gathered statement by statement, and the warnings that
follow from it once the unit is complete.  The data of several units can be merged and checked
together.
-/
set_option autoImplicit false

namespace Mlog

/-- A place where a variable is written, and the type it is written at. -/
structure Definition where
  ty : Ty
  location : Location
  deriving DecidableEq, Repr

/-- A place where a variable is read, and the types it may be read as: one for each overload that
takes the line. -/
structure Usage where
  types : List Ty
  location : Location
  deriving DecidableEq, Repr

/-- The symbols of a unit. -/
structure Symbols where
  definitions : Dict (List Definition) := .empty
  usages : Dict (List Usage) := .empty
  /-- where labels are defined -/
  labels : Dict (List Location) := .empty
  /-- where labels are jumped to -/
  jumps : Dict (List Location) := .empty
  deriving DecidableEq

namespace Symbols

/-- No symbols. -/
def empty : Symbols := {}

/-- Records a definition, once for each type and place. -/
def define (s : Symbols) (name : String) (ty : Ty) (location : Location) : Symbols :=
  { s with
    definitions := s.definitions.update name fun present =>
      let present := present.getD []
      if present.contains ⟨ty, location⟩ then present else present ++ [⟨ty, location⟩] }

/-- Records a label. -/
def addLabel (s : Symbols) (label : String) (location : Location) : Symbols :=
  { s with labels := s.labels.append label [location] }

/-- Records a jump. -/
def addJump (location : Location) (s : Symbols) (label : String) : Symbols :=
  { s with jumps := s.jumps.append label [location] }

/-- Records a read. -/
def addUsage (location : Location) (s : Symbols) (usage : String × List Ty) : Symbols :=
  { s with usages := s.usages.append usage.1 [⟨usage.2, location⟩] }

/-- The reads of a line, one for each name, with the types that the overloads read it as. -/
def groupUsages (reads : List (String × Ty)) : List (String × List Ty) :=
  (reads.map Prod.fst).eraseDups.map fun name =>
    (name, ((reads.filter (·.1 == name)).map Prod.snd).eraseDups)

/-- Records what an instruction line writes, reads and jumps to, under every overload that takes
it. -/
def addInstruction (s : Symbols) (tokens : List String) (location : Location) : Symbols :=
  let overloads := Instruction.matching tokens
  let writes := overloads.flatMap (·.definitions tokens)
  let targets := (overloads.flatMap (·.targets tokens)).eraseDups
  let reads := groupUsages (overloads.flatMap (·.usages tokens))
  let s := writes.foldl (fun s (name, ty) => s.define name ty location) s
  let s := targets.foldl (addJump location) s
  reads.foldl (addUsage location) s

/-- Records a statement of the output. -/
def add (s : Symbols) (statement : Statement) : Symbols :=
  match statement.label? with
  | some label => s.addLabel label statement.location
  | none => s.addInstruction statement.tokens statement.location

/-- The symbols of two units, the first one's before the second one's. -/
def merge (s t : Symbols) : Symbols where
  definitions := s.definitions.merge t.definitions
  usages := s.usages.merge t.usages
  labels := s.labels.merge t.labels
  jumps := s.jumps.merge t.jumps

/-! ## Warnings -/

/-- Whether two definitions go together; booleans and numbers do. -/
def sameType (a b : Ty) : Bool :=
  let plain (t : Ty) : Ty := if t == .boolean then .number else t
  plain a == plain b

/-- The conflict among the definitions of a variable: the first that says something, and the first
after it of another type. -/
def conflict? (definitions : List Definition) : Option (Definition × Definition) :=
  let informative := definitions.filter (!·.ty.isUninformative)
  informative.head?.bind fun first =>
    (informative.find? fun d => !sameType first.ty d.ty).map fun second => (first, second)

/-- The warnings about variables with conflicting definitions. -/
def conflicts (s : Symbols) : List Diagnostic :=
  s.definitions.entries.filterMap fun (name, definitions) =>
    (conflict? definitions).map fun (first, second) =>
      ⟨.conflictingTypes name first.ty first.location second.ty second.location,
        some second.location⟩

/-- The warnings about the reads of one variable.  Without a definition there is one warning for
all of them; otherwise there is one for each that does not accept the first definition's type. -/
def usageWarnings (definitions : List Definition) (name : String) (usages : List Usage) :
    List Diagnostic :=
  match definitions.head? with
  | none =>
    match usages.head? with
    | some first => [⟨.undefinedVariable name usages.length, some first.location⟩]
    | none => []
  | some definition =>
    (usages.filter fun u => !u.types.any (·.accepts definition.ty)).map fun u =>
      ⟨.mismatchedUse name u.types definition.ty definition.location, some u.location⟩

/-- The warnings about the reads of variables. -/
def misuses (s : Symbols) : List Diagnostic :=
  s.usages.entries.flatMap fun (name, usages) =>
    usageWarnings (s.definitions.values name) name usages

/-- The warnings about labels that are defined more than once. -/
def duplicateLabels (s : Symbols) : List Diagnostic :=
  s.labels.entries.filterMap fun (label, sites) =>
    if 1 < sites.length then some ⟨.duplicateLabel label sites, sites[1]?⟩ else none

/-- The warnings about jumps to labels that are nowhere.  An instruction number is no label. -/
def missingLabels (s : Symbols) : List Diagnostic :=
  s.jumps.entries.filterMap fun (label, sites) =>
    if s.labels.contains label || Shape.isAsciiDigits label.toList then none
    else some ⟨.missingLabel label sites, sites.head?⟩

/-- All warnings: conflicts, then reads, then labels, each by name. -/
def diagnose (s : Symbols) : List Diagnostic :=
  s.conflicts ++ s.misuses ++ s.duplicateLabels ++ s.missingLabels

end Symbols

end Mlog
