import Mlog.Ty.Shape

/-!
# Argument types

The type of an instruction's argument says which tokens it takes.  A type may recognise a token by
itself, and it may admit tokens that look like another type: a `number` takes a variable, a boolean
or `null`.  What a token looks like is its guess, the first guessable type in declaration order
that recognises it; a token that nothing recognises looks like a variable.
-/
set_option autoImplicit false

namespace Mlog

/-- The argument types, in the order in which a guess tries them. -/
inductive Ty where
  | unit | building | team | itemType | liquidType | unitType | blockType | senseable | number
  | contentType | string | boolean | null | jumpAddress | operandTest | operandTriple
  | operandDouble | targetClass | unitSortCriteria | buildingGroup | ruleName | senseShorthand
  | variable | any | valid
  deriving DecidableEq, Repr

namespace Ty

/-- Every type, in declaration order. -/
def all : List Ty :=
  [unit, building, team, itemType, liquidType, unitType, blockType, senseable, number,
    contentType, string, boolean, null, jumpAddress, operandTest, operandTriple, operandDouble,
    targetClass, unitSortCriteria, buildingGroup, ruleName, senseShorthand, .variable, any, valid]

theorem mem_all (t : Ty) : t ∈ all := by cases t <;> decide

/-- The name of a type in signatures and reports. -/
def name : Ty → String
  | unit => "unit"
  | building => "building"
  | team => "team"
  | itemType => "itemType"
  | liquidType => "liquidType"
  | unitType => "unitType"
  | blockType => "blockType"
  | senseable => "senseable"
  | number => "number"
  | contentType => "contentType"
  | string => "string"
  | boolean => "boolean"
  | null => "null"
  | jumpAddress => "jumpAddress"
  | operandTest => "operandTest"
  | operandTriple => "operandTriple"
  | operandDouble => "operandDouble"
  | targetClass => "targetClass"
  | unitSortCriteria => "unitSortCriteria"
  | buildingGroup => "buildingGroup"
  | ruleName => "ruleName"
  | senseShorthand => "senseShorthand"
  | .variable => "variable"
  | any => "any"
  | valid => "valid"

/-- The type with a given name. -/
def ofName? (name : String) : Option Ty := all.find? fun t => t.name == name

theorem ofName?_name (t : Ty) : ofName? t.name = some t := by cases t <;> decide

theorem name_of_ofName? {s : String} {t : Ty} (h : ofName? s = some t) : t.name = s := by
  simpa using List.find?_some h

/-- Whether the type recognises a token by itself.  The three types without words or a shape
recognise nothing. -/
def recognises : Ty → String → Bool
  | unit, s => s == "@unit"
  | building, s => Shape.isBuilding s
  | team, s => Vocabulary.teams.contains s
  | itemType, s => Vocabulary.items.contains s
  | liquidType, s => Vocabulary.liquids.contains s
  | unitType, s => Vocabulary.units.contains s
  | blockType, s => Shape.isBlock s
  | senseable, s => Vocabulary.properties.contains s
  | number, s => Shape.isNumber s
  | contentType, s => Shape.isContent s.toList
  | string, s => Shape.isString s.toList
  | boolean, s => s == "true" || s == "false"
  | null, s => s == "null"
  | jumpAddress, s => Shape.isTarget s.toList
  | operandTest, s => Vocabulary.tests.contains s
  | operandTriple, s => Vocabulary.binaryOperations.contains s
  | operandDouble, s => Vocabulary.unaryOperations.contains s
  | targetClass, s => Vocabulary.targetClasses.contains s
  | unitSortCriteria, s => Vocabulary.sortCriteria.contains s
  | buildingGroup, s => Vocabulary.buildingGroups.contains s
  | ruleName, s => Vocabulary.rules.contains s
  | senseShorthand, s => Shape.isShorthand s.toList
  | .variable, _ | any, _ | valid, _ => false

/-- The types whose tokens may stand where this one is expected. -/
def admits : Ty → List Ty
  | unit | building | itemType | liquidType | unitType | blockType | string => [.variable]
  | team => [.variable, number]
  | senseable => [.variable, itemType, liquidType]
  | number => [.variable, boolean, null]
  | contentType => [.variable, itemType, liquidType, unitType, blockType]
  | boolean => [.variable, number]
  | _ => []

/-- The types whose tokens may not stand where this one is expected, whatever their shape. -/
def excludes : Ty → List Ty
  | jumpAddress => [string, boolean, null]
  | _ => []

/-- Whether a guess tries this type.  Keywords, jump targets and the shorthand are recognised only
where they are expected, since their tokens look like variables everywhere else. -/
def guessable : Ty → Bool
  | unit | building | team | itemType | liquidType | unitType | blockType | senseable | number
  | contentType | string | boolean | null => true
  | _ => false

/-- What a token looks like. -/
def guess (token : String) : Ty :=
  (all.find? fun t => t.guessable && t.recognises token).getD .variable

/-- Whether an argument of this type takes every token. -/
def isWildcard : Ty → Bool
  | any | valid => true
  | _ => false

/-- Whether a variable written at this type may hold a value of every type. -/
def isUninformative : Ty → Bool
  | any | .variable | null | valid => true
  | _ => false

/-- Whether a value of type `given` may be read where this type is expected. -/
def accepts (expected given : Ty) : Bool :=
  expected == given || expected.isWildcard || given.isUninformative ||
    expected.admits.contains given

end Ty

end Mlog
