import Mlog.Main
import Mlog.Proofs.Block.LoopHeader
import Mlog.Proofs.Block.Nest
import Mlog.Proofs.Compile.Alias
import Mlog.Proofs.Compile.Append
import Mlog.Proofs.Compile.BaseDialect
import Mlog.Proofs.Compile.Contradiction
import Mlog.Proofs.Compile.Disabled
import Mlog.Proofs.Compile.Labels
import Mlog.Proofs.Compile.LateScopes
import Mlog.Proofs.Compile.Literals
import Mlog.Proofs.Compile.LoopVariable
import Mlog.Proofs.Compile.OpenBlocks
import Mlog.Proofs.Compile.ReadBack
import Mlog.Proofs.Compile.Replay
import Mlog.Proofs.Compile.Seed
import Mlog.Proofs.Compile.Unroll
import Mlog.Proofs.Compile.UnusedLabels
import Mlog.Proofs.Compile.Wholeness
import Mlog.Proofs.Files.Output
import Mlog.Proofs.Instruction.Arity
import Mlog.Proofs.Instruction.Spelling
import Mlog.Proofs.Instruction.Writes
import Mlog.Proofs.Line.Cleaning
import Mlog.Proofs.Symbols.Variables
