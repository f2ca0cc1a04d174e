import Mlog.Location
import Mlog.Reference

/-!
# Statements

One base instruction or label, with the line it came from at each stage: as it was written, without
commentary, and with its constants put in.
-/
set_option autoImplicit false

namespace Mlog

/-- Where a statement came from. -/
structure Provenance where
  filename : String
  line : Nat
  /-- the line as it was written -/
  source : String
  /-- the statement without commentary -/
  cleaned : String
  /-- the statement after its constants were put in -/
  modified : String
  deriving DecidableEq, Repr

/-- The place of the line. -/
def Provenance.location (p : Provenance) : Location := ⟨p.filename, p.line⟩

/-- An instruction or label that goes to the output. -/
structure Statement where
  tokens : List String
  provenance : Provenance
  deriving DecidableEq, Repr

/-- The label that a token defines: `name:` defines `name`, which has neither colon nor quote. -/
def labelName? (token : String) : Option String :=
  match token.toList.reverse with
  | ':' :: rest =>
    if !rest.isEmpty && rest.all (fun c => c != ':' && c != '"') then
      some (String.ofList rest.reverse)
    else none
  | _ => none

namespace Statement

/-- The statement as a line of output. -/
def text (s : Statement) : String := " ".intercalate s.tokens

/-- The place of the statement. -/
def location (s : Statement) : Location := s.provenance.location

/-- The label that the statement defines: it is a label and nothing else. -/
def label? (s : Statement) : Option String :=
  match s.tokens with
  | [token] => labelName? token
  | _ => none

/-- The statement with a value in place of every reference to a name, in its tokens and in all
the texts it came from. -/
def bind (name value : String) (s : Statement) : Statement where
  tokens := s.tokens.map (Reference.bind name value)
  provenance :=
    { s.provenance with
      source := Reference.bind name value s.provenance.source
      cleaned := Reference.bind name value s.provenance.cleaned
      modified := Reference.bind name value s.provenance.modified }

end Statement

end Mlog
