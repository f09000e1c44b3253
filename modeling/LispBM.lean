import LispBM.Memory.Run
import LispBM.Memory.Release
import LispBM.Heap.MarkOverflow
import LispBM.Arrays.Store
import LispBM.Heap.Builders
import LispBM.Heap.MarkPhase
import LispBM.Heap.Run
import LispBM.Heap.Indirection
import LispBM.EvalCps.Overflow
import LispBM.EvalCps.Timer
import LispBM.EvalCps.Queues
import LispBM.EvalCps.Application
import LispBM.EvalCps.OutOfMemory
import LispBM.EcEval.ShortCircuit
import LispBM.EcEval.Arguments
import LispBM.EvalCps.TopLevel
import LispBM.EcEval.Discipline
import LispBM.EcEval.Overflow
import LispBM.Compression.Endings
import LispBM.Compression.RoundTrip
import LispBM.Tokpar.Sexp
import LispBM.Tokpar.Compressed
import LispBM.Tokpar.Lookahead
import LispBM.Tokpar.Numerals
import LispBM.Tokpar.Reading
import LispBM.Tokpar.RoundTrip
import LispBM.Tokpar.DeadEnd
import LispBM.Fundamental.Completion
import LispBM.Fundamental.Arguments
import LispBM.Fundamental.Division
import LispBM.Fundamental.Equality
import LispBM.Env.Shadowing
import LispBM.Env.Define
import LispBM.Extensions
import LispBM.Compiler.ReturnAddress
import LispBM.Compiler.AnnotationsSound
import LispBM.Print.Rendering
import LispBM.Memory.Bitmap
import LispBM.Compression.SizePass
import LispBM.Fundamental.Encodings
import LispBM.Stack.Refinement
import LispBM.Tokpar.Recognisers
import LispBM.EvalCps.Improper
import LispBM.Lib.Turns
import LispBM.Heap.Structures
import LispBM.QqExpand.Expansion
import LispBM.EvalCps.Quasiquote
import LispBM.EvalCps.Programs
