import Lambcalc.Anf.Capture
import Lambcalc.Anf.Preservation
import Lambcalc.Ast.Scope
import Lambcalc.Driver.Compile
import Lambcalc.Emit.Applications
import Lambcalc.Hoist.Correct
import Lambcalc.Parse.Errors
import Lambcalc.Parse.Repl
import Lambcalc.Parse.Stream
import Lambcalc.Emit.Emitted
import Lambcalc.Emit.Bodies
import Lambcalc.Emit.Simulation
import Lambcalc.Emit.Correct
import Lambcalc.Emit.IfJump
import Lambcalc.Arena.Allocator
import Lambcalc.Lib.Regions
import Lambcalc.Arena.Runs
import Lambcalc.Parse.Layout
import Lambcalc.Parse.Remaining
import Lambcalc.Parse.Viable
import Lambcalc.Parse.Recovery
import Lambcalc.Derivation.Convert
import Lambcalc.Derivation.Defunc
import Lambcalc.Derivation.Correct
import Lambcalc.Driver.Arithmetic
import Lambcalc.Parse.Checked
import Lambcalc.Driver.Report
import Lambcalc.InPlace.Node
import Lambcalc.InPlace.ClosureConvert
import Lambcalc.InPlace.ConvertCorrect
import Lambcalc.InPlace.Hoist
import Lambcalc.InPlace.HoistCorrect
import Lambcalc.Ast.Meaning
import Lambcalc.Driver.Names
import Lambcalc.Driver.Correct
import Lambcalc.Parse.Written
import Lambcalc.Driver.Session
import Lambcalc.Lib.Destructor
import Lambcalc.InPlace.Destructor
import Lambcalc.InPlace.Round
import Lambcalc.Lib.Words
import Lambcalc.Anf.Print
import Lambcalc.Driver.Size
import Lambcalc.Lib.Limited
import Lambcalc.Parse.InArena
import Lambcalc.Parse.ArenaLoop
