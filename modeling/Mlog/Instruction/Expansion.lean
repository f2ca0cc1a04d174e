import Mlog.Text.Blank

/-!
# Expansions

What an instruction of the extended dialect becomes in the base dialect.  Most instructions stay as
they are; the others fill the slots of a fixed template with their own tokens, print one value per
line, or take a shorthand apart.

Token 0 is the mnemonic, so operand `n` of a template is the `n`-th token after it.
-/
set_option autoImplicit false

namespace Mlog

/-- One token of a template. -/
inductive Slot where
  | word (text : String)
  | operand (n : Nat)
  deriving DecidableEq, Repr

namespace Slot

/-- The way a slot is written. -/
def text : Slot → String
  | word t => t
  | operand n => "%" ++ toString n

/-- The token in a slot; an operand that is missing leaves the slot as it is written. -/
def fill (tokens : List String) : Slot → String
  | word t => t
  | operand n => tokens[n]?.getD (operand n).text

end Slot

/-- A property with its `@`, whether or not it was written with one. -/
def sensedProperty (property : String) : String :=
  if property.toList.head? == some '@' then property else "@" ++ property

/-- How an instruction becomes base instructions. -/
inductive Expansion where
  /-- it is one already -/
  | asWritten
  /-- one line for each template -/
  | template (lines : List (List Slot))
  /-- one line for each operand -/
  | eachOperand
  /-- the second operand `thing.property` becomes two -/
  | shorthand
  deriving DecidableEq, Repr

namespace Expansion

/-- The lines that an instruction's tokens expand to.  A shorthand without its operands or without
a dot stays as it is. -/
def apply (tokens : List String) : Expansion → List (List String)
  | asWritten => [tokens]
  | template lines => lines.map (·.map (Slot.fill tokens))
  | eachOperand =>
    match tokens with
    | [] => []
    | mnemonic :: operands => operands.map fun value => [mnemonic, value]
  | shorthand =>
    match tokens with
    | mnemonic :: output :: operand :: _ =>
      match Text.cutLast '.' operand.toList with
      | some (thing, property) =>
        [[mnemonic, output, String.ofList thing, sensedProperty (String.ofList property)]]
      | none => [tokens]
    | _ => [tokens]

end Expansion

end Mlog
