import Mlog.Instruction.Expansion
import Mlog.Instruction.Rejection
import Mlog.Param.Basic

/-!
# Overloads

An instruction has one overload or several, each with its own parameters.  An overload checks a
line, expands it, and says what the line writes, reads and jumps to.

All of these go by position: the `i`-th operand belongs to the `i`-th parameter, and operands
beyond the last parameter belong to the variadic one.
-/
set_option autoImplicit false

namespace Mlog

/-- The block constructs. -/
inductive BlockKind where
  /-- puts the variables inside under a name of their own -/
  | scope
  /-- repeats what is inside -/
  | loop
  /-- keeps or drops what is inside -/
  | conditional
  /-- ends the innermost block -/
  | close
  deriving DecidableEq, Repr

/-- How the variables that an instruction writes get their types. -/
inductive WriteRule where
  /-- every written parameter, at its declared type -/
  | declared
  /-- operand `target`, at the type that operand `value` looks like -/
  | assigned (target value : Nat)
  /-- operand `output`, at the type of the property that operand `property` names -/
  | sensed (output property : Nat)
  deriving DecidableEq, Repr

/-- One overload of an instruction. -/
structure Overload where
  mnemonic : String
  params : List Param
  description : String
  expansion : Expansion := .asWritten
  writes : WriteRule := .declared
  worldOnly : Bool := false
  /-- the block construct that the overload stands for; its keyword is its first parameter -/
  block : Option BlockKind := none
  deriving DecidableEq, Repr

/-- The type of a sensed property, named with its `@`. -/
def sensedType (property : String) : Ty :=
  if ["@type", "@payloadType", "@config"].contains property then .contentType
  else if property == "@firstItem" then .itemType
  else if property == "@controller" then .unit
  else if property == "@team" then .team
  else if property == "@name" then .any
  else if ["@dead", "@shooting", "@boosting", "@mining", "@enabled"].contains property then
    .boolean
  else if property.toList.head? == some '@' then .number
  else .any

namespace Overload

/-- The least number of operands. -/
def least (o : Overload) : Nat := (o.params.filter (!·.optional)).length

/-- The greatest number of operands, if there is one. -/
def most (o : Overload) : Option Nat :=
  if o.params.any Param.isVariadic then none else some o.params.length

/-- Whether a number of operands is within the bounds. -/
def takesCount (o : Overload) (n : Nat) : Bool := o.least ≤ n && o.most.all (n ≤ ·)

/-- The tokens that belong to parameters: those after the mnemonic, or all of them for a block
construct. -/
def operands (o : Overload) (tokens : List String) : List String :=
  if o.block.isSome then tokens else tokens.drop 1

/-- The parameter of the operand at a position. -/
def paramAt? (o : Overload) (position : Nat) : Option Param :=
  match o.params[position]? with
  | some p => some p
  | none => o.params.find? Param.isVariadic

/-- The operands of a line with their parameters. -/
def bind (o : Overload) (tokens : List String) : List (String × Param) :=
  (o.operands tokens).zipIdx.filterMap fun (token, position) =>
    (o.paramAt? position).map fun p => (token, p)

/-- The overload as it is written in reports. -/
def signature (o : Overload) : String :=
  let params := " ".intercalate (o.params.map Param.text)
  if params.isEmpty then o.mnemonic
  else if o.block.isSome then params
  else o.mnemonic ++ " " ++ params

/-- Why a token does not fit its parameter. -/
def mismatch (token : String) (p : Param) : Rejection.Cause :=
  match p.form with
  | .keyword => .wrongKeyword p.name token
  | .value ty written _ =>
    if written then .notWritable token p.name (Ty.guess token)
    else .wrongType token ty (Ty.guess token)

/-- Checks a line, mnemonic included: first the number of its operands, then each operand in
turn. -/
def check (o : Overload) (tokens : List String) : Except Rejection Unit :=
  let given := (o.operands tokens).length
  if !o.takesCount given then
    .error ⟨.operandCount o.signature o.least o.most given, o.block.isSome⟩
  else
    match (o.bind tokens).find? fun (token, p) => !p.takes token with
    | some (token, p) => .error ⟨mismatch token p, o.block.isSome⟩
    | none => .ok ()

/-- Whether the overload takes a line. -/
def takes (o : Overload) (tokens : List String) : Bool := (o.check tokens).isOk

/-- The lines that a line expands to. -/
def expand (o : Overload) (tokens : List String) : List (List String) :=
  o.expansion.apply tokens

/-! ## Variables and labels

The name `_` discards a value, so it is never a variable. -/

/-- The variables that a line writes, each with its type. -/
def definitions (o : Overload) (tokens : List String) : List (String × Ty) :=
  match o.writes with
  | .declared =>
    (o.bind tokens).filterMap fun (token, p) =>
      if p.isWritten && token != "_" then p.ty?.map fun ty => (token, ty) else none
  | .assigned target value =>
    match (o.operands tokens)[target]?, (o.operands tokens)[value]? with
    | some target, some value => if target == "_" then [] else [(target, Ty.guess value)]
    | _, _ => []
  | .sensed output property =>
    match (o.operands tokens)[output]?, (o.operands tokens)[property]? with
    | some output, some property =>
      if output == "_" then []
      else
        -- of the shorthand `thing.property` only the last part is the property
        let name := ((Text.cutLast '.' property.toList).map Prod.snd).getD property.toList
        [(output, sensedType (sensedProperty (String.ofList name)))]
    | _, _ => []

/-- Whether a token at a parameter of type `ty` is a variable: its type does not recognise it, and
it looks like nothing else. -/
def isVariable (ty : Ty) (token : String) : Bool :=
  !ty.recognises token && Ty.guess token == .variable

/-- The variables that a line reads, each with the type it is read as. -/
def usages (o : Overload) (tokens : List String) : List (String × Ty) :=
  (o.bind tokens).filterMap fun (token, p) =>
    match p.form with
    | .value ty false _ =>
      if ty != .jumpAddress && token != "_" && isVariable ty token then some (token, ty) else none
    | _ => none

/-- The targets that a line jumps to. -/
def targets (o : Overload) (tokens : List String) : List String :=
  (o.bind tokens).filterMap fun (token, p) =>
    if p.ty? == some .jumpAddress then some token else none

end Overload

end Mlog
