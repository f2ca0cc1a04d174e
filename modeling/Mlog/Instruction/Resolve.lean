import Mlog.Instruction.Table

/-!
# Resolution

Which overload a line means, and if it means none, which fault to report.  The first overload that
takes the line wins.  When all refuse, a fault that stands out is reported as it is, and otherwise
the overloads are listed.
-/
set_option autoImplicit false

namespace Mlog.Instruction

/-- The overloads of a mnemonic, in order. -/
def overloads (mnemonic : String) : List Overload := table.filter (·.mnemonic == mnemonic)

/-- Whether a mnemonic opens or closes a block. -/
def isBlockKeyword (mnemonic : String) : Bool :=
  (overloads mnemonic).any (·.block.isSome)

/-- The rejections that count: those of block constructs only when there are no others. -/
def preferred (rejections : List Rejection) : List Rejection :=
  let strong := rejections.filter (!·.lowPriority)
  if strong.isEmpty then rejections else strong

/-- The only member of a list. -/
def sole? {α : Type} : List α → Option α
  | [a] => some a
  | _ => none

/-- The rejection to report when every overload of a mnemonic refused: the only one that counts,
else the only type fault, else the only wrong operand count, else the list of overloads. -/
def pickRejection (mnemonic : String) (candidates : List Overload)
    (rejections : List Rejection) : Rejection :=
  let counting := preferred rejections
  let choice := sole? counting
    <|> sole? (counting.filter (·.kind == .type))
    <|> sole? (counting.filter (·.kind == .operandCount))
  choice.getD
    ⟨.noOverload mnemonic (candidates.map fun o => (o.signature, o.description)), false⟩

/-- The rejections of a line by each of the overloads that refuse it. -/
def rejections (candidates : List Overload) (tokens : List String) : List Rejection :=
  candidates.filterMap fun o =>
    match o.check tokens with
    | .ok () => none
    | .error r => some r

/-- The overload that a line means: the first that takes all of it. -/
def resolve (tokens : List String) : Except Rejection Overload :=
  match tokens with
  | [] => .error ⟨.emptyLine, false⟩
  | mnemonic :: _ =>
    let candidates := overloads mnemonic
    if candidates.isEmpty then .error ⟨.unknownCommand mnemonic, false⟩
    else match candidates.find? (·.takes tokens) with
      | some o => .ok o
      | none => .error (pickRejection mnemonic candidates (rejections candidates tokens))

/-- Every instruction overload that takes a line, block constructs aside. -/
def matching (tokens : List String) : List Overload :=
  match tokens with
  | [] => []
  | mnemonic :: _ => (overloads mnemonic).filter fun o => o.block.isNone && o.takes tokens

end Mlog.Instruction
