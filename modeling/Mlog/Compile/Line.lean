import Mlog.Block
import Mlog.Instruction.Resolve
import Mlog.Line.Split
import Mlog.Settings.Basic

/-!
# Compiling a line

A line is cleaned and divided into statements; each statement gets its constants put in and is
divided into tokens.  The tokens open or close a block, define a label, or are an instruction.  An
instruction is resolved, expanded into base instructions, and has the open scopes put in front of
its variables; the results then pass through the open blocks.

A line can fail halfway.  What was reported and which blocks were opened before that stays, so a
step carries them beside its result.
-/
set_option autoImplicit false

namespace Mlog.Compile

/-- What compiling a piece of source did: the warnings it gave, the blocks open afterwards, and the
statements that came out or the error that ended it. -/
structure Step where
  diagnostics : List Diagnostic
  stack : BlockStack
  result : Except CompileError (List Statement)

/-- Rejects a line: an error in strict mode, and a warning otherwise. -/
def reject (options : Options) (rejection : Rejection) (provenance : Provenance) :
    Except CompileError Diagnostic :=
  if options.strict then .error (.rejected rejection provenance.location provenance.source)
  else .ok ⟨.skipped rejection, some provenance.location⟩

/-! ## Scopes -/

/-- An operand with the open scopes in front, if it is a variable or a label. -/
def qualifyOperand (stack : BlockStack) (param : Option Param) (token : String) : String :=
  match param.bind Param.ty? with
  | none => token
  | some ty =>
    let named :=
      if ty == .jumpAddress then !token.toList.all Char.isDigit
      else Overload.isVariable ty token
    if named then stack.qualify token else token

/-- An instruction line with the open scopes in front of its variables and labels. -/
def qualifyLine (stack : BlockStack) (o : Overload) (tokens : List String) : List String :=
  let lead := if o.block.isSome then 0 else 1
  tokens.take lead ++ (tokens.drop lead).zipIdx.map fun (token, position) =>
    qualifyOperand stack (o.paramAt? position) token

/-! ## Instructions -/

/-- The base instruction that an expanded line is.  Anything else would be a contradiction in the
instruction set. -/
def baseOverload (tokens line : List String) (location : Location) :
    Except CompileError Overload :=
  match Instruction.resolve line with
  | .ok o =>
    if o.expansion = .asWritten then .ok o
    else .error (.internal (.expandsToExtended tokens line) location)
  | .error r => .error (.internal (.expandsToUnknown tokens line r) location)

/-- The statements that an instruction becomes, before they pass through the open blocks. -/
def lower (stack : BlockStack) (o : Overload) (tokens : List String) (provenance : Provenance) :
    Except CompileError (List Statement) :=
  (o.expand tokens).mapM fun line => do
    let base ← baseOverload tokens line provenance.location
    return ⟨qualifyLine stack base line, provenance⟩

/-- Lets statements pass through the open blocks. -/
def emit (diagnostics : List Diagnostic) (stack : BlockStack) (statements : List Statement) :
    Step :=
  let (stack, out) := stack.pass statements
  ⟨diagnostics, stack, .ok out⟩

/-- Compiles an instruction. -/
def instruction (options : Options) (stack : BlockStack) (tokens : List String)
    (provenance : Provenance) : Step :=
  match Instruction.resolve tokens with
  | .error r =>
    match reject options r provenance with
    | .error e => ⟨[], stack, .error e⟩
    | .ok d => ⟨[d], stack, .ok []⟩
  | .ok o =>
    let warnings : List Diagnostic :=
      if o.worldOnly && !options.worldProcessor then
        [⟨.worldOnly o.mnemonic, some provenance.location⟩]
      else []
    match lower stack o tokens provenance with
    | .error e => ⟨warnings, stack, .error e⟩
    | .ok statements => emit warnings stack statements

/-! ## Blocks and labels -/

/-- Closes the innermost block.  Nothing may follow the brace. -/
def closeBlock (stack : BlockStack) (rest : List String) (location : Location) : Step :=
  if !rest.isEmpty then
    ⟨[], stack, .error (.broken (.textAfterClose (" ".intercalate rest)) location)⟩
  else match stack.close with
    | .error fault => ⟨[], stack, .error (.broken fault location)⟩
    | .ok (stack, out) => ⟨[], stack, .ok out⟩

/-- Opens the block that a header describes.  `header` is the line without its brace. -/
def openBlock (stack : BlockStack) (header : List String) (location : Location) : Step :=
  match Instruction.resolve header with
  | .error r => ⟨[], stack, .error (.broken (.badHeader r) location)⟩
  | .ok o =>
    match o.block with
    | none =>
      ⟨[], stack, .error (.internal (.keywordIsInstruction (header.headD "")) location)⟩
    | some kind =>
      match stack.enter kind header location with
      | (stack, .error fault) => ⟨[], stack, .error (.broken fault location)⟩
      | (stack, .ok warnings) => ⟨warnings, stack, .ok []⟩

/-- Compiles a line that begins with a block keyword.  A header ends in an opening brace. -/
def blockLine (stack : BlockStack) (tokens : List String) (location : Location) : Step :=
  if tokens.head? == some "\x7d" then closeBlock stack (tokens.drop 1) location
  else if tokens.getLast? == some "\x7b" then openBlock stack tokens.dropLast location
  else ⟨[], stack, .error (.broken (.missingBrace (" ".intercalate tokens)) location)⟩

/-- The label that a line of tokens defines. -/
def labelOf? : List String → Option String
  | [token] => labelName? token
  | _ => none

/-- Compiles the tokens of one statement.  A block keyword is one even where it could be a
label. -/
def statement (options : Options) (stack : BlockStack) (tokens : List String)
    (provenance : Provenance) : Step :=
  match tokens with
  | [] => ⟨[], stack, .ok []⟩
  | first :: _ =>
    if Instruction.isBlockKeyword first then blockLine stack tokens provenance.location
    else match labelOf? tokens with
      | some label => emit [] stack [⟨[stack.qualify label ++ ":"], provenance⟩]
      | none => instruction options stack tokens provenance

/-! ## Lines -/

/-- The values of constants, as they are put into a statement. -/
def constantText (constants : Constants) (name : String) : Option String :=
  (constants.get? name).map Constant.text

/-- Compiles one statement of a line.  The variables of open loops are bound later, so they need no
value now. -/
def part (settings : Settings) (location : Location) (source : String) (stack : BlockStack)
    (text : String) : Step :=
  let substituted :=
    Reference.substitute (constantText settings.constants) stack.loopVariables text
  let warnings : List Diagnostic :=
    substituted.unresolved.map fun name => ⟨.undefinedConstant name, some location⟩
  match Line.tokens substituted.text with
  | .error e => ⟨warnings, stack, .error (.broken (.unclosedString e) location)⟩
  | .ok tokens =>
    let step := statement settings.options stack tokens
      ⟨location.filename, location.line, source, text, substituted.text⟩
    { step with diagnostics := warnings ++ step.diagnostics }

/-- Compiles the statements of a line in order, up to the first that fails. -/
def parts (settings : Settings) (location : Location) (source : String) :
    BlockStack → List String → Step
  | stack, [] => ⟨[], stack, .ok []⟩
  | stack, text :: rest =>
    let first := part settings location source stack text
    match first.result with
    | .error _ => first
    | .ok out =>
      let others := parts settings location source first.stack rest
      { diagnostics := first.diagnostics ++ others.diagnostics
        stack := others.stack
        result := others.result.map (out ++ ·) }

/-- Compiles a line as it was written. -/
def line (settings : Settings) (location : Location) (stack : BlockStack) (source : String) :
    Step :=
  match Line.statements (Line.clean source) with
  | .error e => ⟨[], stack, .error (.broken (.unclosedString e) location)⟩
  | .ok texts => parts settings location source stack texts

end Mlog.Compile
