import ProtoClojure.Compiler.SoundFunctions
import ProtoClojure.Runtime.ActorDelivery
import ProtoClojure.Runtime.ActorBuffer
import ProtoClojure.Runtime.ActorTurns
import ProtoClojure.Runtime.ActorShutdown
import ProtoClojure.Runtime.CallRoutes
import ProtoClojure.Runtime.ArgCounts
import ProtoClojure.Runtime.Interning
import ProtoClojure.Runtime.Atoms
import ProtoClojure.Runtime.LazyCell
import ProtoClojure.Runtime.MapFunctions
import ProtoClojure.Runtime.KeyStack
import ProtoClojure.Runtime.Sorting
import ProtoClojure.Json.RoundTrip
import ProtoClojure.Reader.SyntaxQuote
import ProtoClojure.Sequences.Partition
import ProtoClojure.Sequences.Reductions
import ProtoClojure.Sequences.Pipelines
import ProtoClojure.Sets.SetAlgebra
import ProtoClojure.Sets.SetObjects
import ProtoClojure.Regex.Matches
import ProtoClojure.Regex.Split
import ProtoClojure.Sequences.FastPrimitives
import ProtoClojure.Reader.Forms
import ProtoClojure.Reader.Lexemes
import ProtoClojure.Reader.NextToken
import ProtoClojure.Reader.Spacing
import ProtoClojure.Reader.Pending
import ProtoClojure.Repl.Agreement
import ProtoClojure.Collections.InternTable
import ProtoClojure.Dap.PathMappings
import ProtoClojure.Json.Acceptance
import ProtoClojure.Reader.Codec
import ProtoClojure.Reader.FloatToken
import ProtoClojure.Runtime.Bigint
import ProtoClojure.Runtime.ConstPool
import ProtoClojure.Control.FairRuns
import ProtoClojure.Dap.StopHistory
import ProtoClojure.Dap.StopProgress
import ProtoClojure.Io.Descriptors
import ProtoClojure.Io.ServerThreads
import ProtoClojure.Io.StopRuns
import ProtoClojure.Reader.CodeLiterals
import ProtoClojure.Compiler.Compiled
import ProtoClojure.Compiler.StackSafety
