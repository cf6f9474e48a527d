import TermGraph.Symbol.Table
import TermGraph.Term.Order
import TermGraph.Term.Stream
import TermGraph.Term.Text
import TermGraph.Fingerprint
import TermGraph.Term.Batch
import TermGraph.Term.Build
import TermGraph.Random.Draw
import TermGraph.Sampler.Basic
import TermGraph.Sampler.Generate
import TermGraph.CommandLine.Arguments
import TermGraph.CommandLine.Run
import TermGraph.Main
import TermGraph.Script.Excerpt
import TermGraph.Script.Expr
import TermGraph.Script.Session
import TermGraph.Proofs.Graph
import TermGraph.Proofs.Course
import TermGraph.Proofs.ScalarOrder
import TermGraph.Proofs.StructuralOrder
import TermGraph.Proofs.TotalOrder
import TermGraph.Proofs.ByteCode
import TermGraph.Proofs.Heap
import TermGraph.Proofs.Registration
import TermGraph.Proofs.SampledTerms
import TermGraph.Proofs.Workspace
import TermGraph.Proofs.ArityDiscipline
import TermGraph.Proofs.Cost
import TermGraph.Proofs.Saving
import TermGraph.Proofs.Naming
import TermGraph.Proofs.Requests
import TermGraph.Proofs.Rendering
import TermGraph.Proofs.Commons
import TermGraph.Proofs.Bounds
import TermGraph.Proofs.Capacity
import TermGraph.Proofs.Batches
import TermGraph.Proofs.SingleBounds
import TermGraph.Proofs.Decisions
import TermGraph.Proofs.Generation
import TermGraph.Proofs.Samples
import TermGraph.Proofs.Nesting
import TermGraph.Proofs.LeafDepth
import TermGraph.Proofs.Keeping
import TermGraph.Proofs.Unshared
import TermGraph.Proofs.PoolSizes
import TermGraph.Proofs.Applications
import TermGraph.Proofs.RoundedQuotients
import TermGraph.Proofs.Ingredients
import TermGraph.Proofs.GenerationLoops
import TermGraph.Proofs.GuardedDraws
import TermGraph.Proofs.GuardedSampling
import TermGraph.Proofs.DecimalText
import TermGraph.Proofs.Invocations
import TermGraph.Proofs.Chains
import TermGraph.Proofs.SortedLines
import TermGraph.Proofs.GrownTables
import TermGraph.Proofs.Rebuilding
import TermGraph.Proofs.Lists
import TermGraph.Proofs.Contexts
import TermGraph.Proofs.Renaming
import TermGraph.Proofs.RegistrationOrder
import TermGraph.Proofs.SideBySide
import TermGraph.Proofs.Scripts
import TermGraph.Proofs.CodePoints
import TermGraph.Proofs.FloatOrder
import TermGraph.Proofs.RoundedDecimals
import TermGraph.Proofs.ShortestDecimals
import TermGraph.Proofs.ReadingBack
import TermGraph.Proofs.Preorder
import TermGraph.Proofs.Verdicts
import TermGraph.Proofs.Copies
import TermGraph.Proofs.UniqueReading
import TermGraph.Proofs.LeafTexts
import TermGraph.Proofs.PrintedLines
