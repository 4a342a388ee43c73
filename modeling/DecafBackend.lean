import DecafBackend.Allocation.Coloring
import DecafBackend.Allocation.Interference
import DecafBackend.Allocation.Registers
import DecafBackend.Allocation.Web
import DecafBackend.Arena
import DecafBackend.CommandLine
import DecafBackend.Compile
import DecafBackend.CompileError
import DecafBackend.DisjointSets
import DecafBackend.Fault
import DecafBackend.Flow.Graph
import DecafBackend.Flow.Liveness
import DecafBackend.Flow.Solver
import DecafBackend.IR.Bindings
import DecafBackend.IR.Body
import DecafBackend.IR.Builder
import DecafBackend.IR.Module
import DecafBackend.IR.Operator
import DecafBackend.IR.Printer
import DecafBackend.IR.Record
import DecafBackend.IR.Serialized
import DecafBackend.Inspect
import DecafBackend.Json.Containers
import DecafBackend.Json.Form
import DecafBackend.Json.Parser
import DecafBackend.Json.Printer
import DecafBackend.Json.Value
import DecafBackend.Key
import DecafBackend.Key.Optional
import DecafBackend.KeySet
import DecafBackend.Layout.Linked
import DecafBackend.Layout.Serialized
import DecafBackend.Lowering
import DecafBackend.Machine.Assembly
import DecafBackend.Machine.Emission
import DecafBackend.Machine.Frame
import DecafBackend.Machine.Register
import DecafBackend.Machine.Scratch
import DecafBackend.Machine.Serialized
import DecafBackend.Machine.Session
import DecafBackend.Main
import DecafBackend.Optimize.Available
import DecafBackend.Optimize.CommonTerms
import DecafBackend.Optimize.Copies
import DecafBackend.Optimize.DeadSaves
import DecafBackend.Optimize.Pass
import DecafBackend.Optimize.Term
import DecafBackend.Optimize.ValueNumbers
import DecafBackend.Options
import DecafBackend.Options.Serialized
import DecafBackend.Proofs.Agreement
import DecafBackend.Proofs.Allocation
import DecafBackend.Proofs.AssigningBuilders
import DecafBackend.Proofs.Available
import DecafBackend.Proofs.AvailableSets
import DecafBackend.Proofs.Behaviour
import DecafBackend.Proofs.BlockOrders
import DecafBackend.Proofs.BodyEdits
import DecafBackend.Proofs.CalmRuns
import DecafBackend.Proofs.ChangedWays
import DecafBackend.Proofs.Checked
import DecafBackend.Proofs.CollectedNames
import DecafBackend.Proofs.Coloring
import DecafBackend.Proofs.ColoringPressure
import DecafBackend.Proofs.Commands
import DecafBackend.Proofs.CommonTerms
import DecafBackend.Proofs.CommonTermsConvergence
import DecafBackend.Proofs.CommonTermsEdits
import DecafBackend.Proofs.CommonTermsExactness
import DecafBackend.Proofs.CommonTermsFacts
import DecafBackend.Proofs.CommonTermsRewrite
import DecafBackend.Proofs.CommonTermsRuns
import DecafBackend.Proofs.CommonTermsSoundness
import DecafBackend.Proofs.CompileOutcomes
import DecafBackend.Proofs.Components
import DecafBackend.Proofs.CompoundAssignments
import DecafBackend.Proofs.Construction
import DecafBackend.Proofs.Convergence
import DecafBackend.Proofs.Copies
import DecafBackend.Proofs.CopiesConvergence
import DecafBackend.Proofs.CopiesFacts
import DecafBackend.Proofs.CopiesRedirects
import DecafBackend.Proofs.DeadSaves
import DecafBackend.Proofs.DeadSavesCompletion
import DecafBackend.Proofs.DeadSavesEdits
import DecafBackend.Proofs.DeadSavesElimination
import DecafBackend.Proofs.DisciplinedMethods
import DecafBackend.Proofs.DisjointSets
import DecafBackend.Proofs.EmissionCode
import DecafBackend.Proofs.EmissionOutcomes
import DecafBackend.Proofs.EmittedCalls
import DecafBackend.Proofs.EmittedCommands
import DecafBackend.Proofs.EmittedMethods
import DecafBackend.Proofs.EmittedRuns
import DecafBackend.Proofs.EmittedStatements
import DecafBackend.Proofs.EmittedValues
import DecafBackend.Proofs.Execution
import DecafBackend.Proofs.FactHistories
import DecafBackend.Proofs.FitBodies
import DecafBackend.Proofs.FitPasses
import DecafBackend.Proofs.Fixpoints
import DecafBackend.Proofs.FrameLayout
import DecafBackend.Proofs.FrameOffsets
import DecafBackend.Proofs.FrameSlots
import DecafBackend.Proofs.HandedOutKeys
import DecafBackend.Proofs.Initialization
import DecafBackend.Proofs.InitializedPasses
import DecafBackend.Proofs.Interference
import DecafBackend.Proofs.KeySetHistories
import DecafBackend.Proofs.LayoutEdits
import DecafBackend.Proofs.LayoutListings
import DecafBackend.Proofs.LayoutOutlines
import DecafBackend.Proofs.LinkedChains
import DecafBackend.Proofs.LinkedLayouts
import DecafBackend.Proofs.Liveness
import DecafBackend.Proofs.LivenessExactness
import DecafBackend.Proofs.LoweredBodies
import DecafBackend.Proofs.LoweredPrograms
import DecafBackend.Proofs.LoweringExpressions
import DecafBackend.Proofs.LoweringGrowth
import DecafBackend.Proofs.LoweringMethods
import DecafBackend.Proofs.LoweringRuns
import DecafBackend.Proofs.LoweringStatements
import DecafBackend.Proofs.LoweringSteps
import DecafBackend.Proofs.MachineExecution
import DecafBackend.Proofs.Maps
import DecafBackend.Proofs.OrderlyBodies
import DecafBackend.Proofs.Passes
import DecafBackend.Proofs.Points
import DecafBackend.Proofs.ProgramSections
import DecafBackend.Proofs.QuotedTexts
import DecafBackend.Proofs.Reachability
import DecafBackend.Proofs.Reallocation
import DecafBackend.Proofs.Recomputation
import DecafBackend.Proofs.RegularBodies
import DecafBackend.Proofs.Resaving
import DecafBackend.Proofs.SlotMapHistories
import DecafBackend.Proofs.SlotMaps
import DecafBackend.Proofs.Solver
import DecafBackend.Proofs.SoundBuilders
import DecafBackend.Proofs.SpelledRecords
import DecafBackend.Proofs.SpelledTrees
import DecafBackend.Proofs.StackDiscipline
import DecafBackend.Proofs.StackPaths
import DecafBackend.Proofs.SuppliedBodies
import DecafBackend.Proofs.TextLabels
import DecafBackend.Proofs.TransferFunctions
import DecafBackend.Proofs.TreeExecution
import DecafBackend.Proofs.ValueNumbers
import DecafBackend.Proofs.WebClosure
import DecafBackend.Proofs.Webs
import DecafBackend.Proofs.WellFormed
import DecafBackend.SlotMap
import DecafBackend.Source.Reader
import DecafBackend.Source.Tree
import DecafBackend.Source.Writer
import DecafBackend.SymbolPool
import DecafBackend.Text.Blank
import DecafBackend.Text.Extender
import DecafBackend.Text.Listing
import DecafBackend.Text.Quoted
import DecafBackend.Text.Unprintable
import DecafBackend.Tool
import DecafBackend.Tool.Directory
