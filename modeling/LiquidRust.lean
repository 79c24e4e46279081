import LiquidRust.Common.DisjointSetsModel
import LiquidRust.Common.Iter
import LiquidRust.Driver.LowerBodySound
import LiquidRust.Driver.MachineSound
import LiquidRust.Driver.ResolveNames
import LiquidRust.Fixpoint.Display
import LiquidRust.Fixpoint.Unambiguous
import LiquidRust.Lib.Renaming
import LiquidRust.Lib.TwoRuns
import LiquidRust.Syntax.Grammar
import LiquidRust.Syntax.Lexer
import LiquidRust.Syntax.Rendering
import LiquidRust.Syntax.Text
import LiquidRust.Typeck.CallInference
import LiquidRust.Typeck.CallSound
import LiquidRust.Typeck.CheckSound
import LiquidRust.Typeck.Checker
import LiquidRust.Typeck.Closed
import LiquidRust.Typeck.ClosedRun
import LiquidRust.Typeck.ClosedSteps
import LiquidRust.Typeck.Coarser
import LiquidRust.Typeck.Dangling
import LiquidRust.Typeck.DanglingRun
import LiquidRust.Typeck.InferBbEnv
import LiquidRust.Typeck.Instantiation
import LiquidRust.Typeck.InternRuns
import LiquidRust.Typeck.IntoFixpoint
import LiquidRust.Typeck.Join
import LiquidRust.Typeck.JoinOrder
import LiquidRust.Typeck.JoinReplay
import LiquidRust.Typeck.JoinShape
import LiquidRust.Typeck.JoinSteps
import LiquidRust.Typeck.LevelOrder
import LiquidRust.Typeck.Over
import LiquidRust.Typeck.ReplaceKvars
import LiquidRust.Typeck.Rvalues
import LiquidRust.Typeck.Sessions
import LiquidRust.Typeck.Shortcuts
import LiquidRust.Typeck.SignatureUse
import LiquidRust.Typeck.Stores
import LiquidRust.Typeck.Subtyping
import LiquidRust.Typeck.SubtypingSound
import LiquidRust.Typeck.Switch
import LiquidRust.Typeck.Trace
import LiquidRust.Typeck.TransformSound
import LiquidRust.Typeck.Traversal
import LiquidRust.Typeck.TypeArguments
import LiquidRust.Typeck.Unpacking
