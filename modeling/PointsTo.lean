import PointsTo.Analysis
import PointsTo.Ascending
import PointsTo.Association
import PointsTo.CallGraph
import PointsTo.Context
import PointsTo.Ensemble
import PointsTo.Error
import PointsTo.FlowGraph
import PointsTo.Heap
import PointsTo.Hierarchy
import PointsTo.Id
import PointsTo.Interned
import PointsTo.JavaType
import PointsTo.Json
import PointsTo.Json.Analysis
import PointsTo.Json.Codec
import PointsTo.Json.Options
import PointsTo.Json.Program
import PointsTo.Lambda
import PointsTo.Lambda.Shift
import PointsTo.MethodRef
import PointsTo.MockTable
import PointsTo.Multimap
import PointsTo.Options
import PointsTo.Options.Document
import PointsTo.Options.Error
import PointsTo.Options.Format
import PointsTo.Options.Patch
import PointsTo.Options.Preset
import PointsTo.Options.Yaml
import PointsTo.OrderedSet
import PointsTo.Plugin
import PointsTo.Pointer
import PointsTo.PointsToMap
import PointsTo.Program
import PointsTo.Program.Builder
import PointsTo.Proofs.Accounting
import PointsTo.Proofs.ActionClosure
import PointsTo.Proofs.Additions
import PointsTo.Proofs.Aliasing
import PointsTo.Proofs.ArgumentArrays
import PointsTo.Proofs.ArgumentClosure
import PointsTo.Proofs.Assembling
import PointsTo.Proofs.Assignments
import PointsTo.Proofs.Bounds
import PointsTo.Proofs.Budgets
import PointsTo.Proofs.Building
import PointsTo.Proofs.CallChains
import PointsTo.Proofs.CallTargets
import PointsTo.Proofs.Callees
import PointsTo.Proofs.Chronicles
import PointsTo.Proofs.ClassClosure
import PointsTo.Proofs.Closure
import PointsTo.Proofs.Collecting
import PointsTo.Proofs.Computation
import PointsTo.Proofs.Confinement
import PointsTo.Proofs.ContextDiscipline
import PointsTo.Proofs.Conversations
import PointsTo.Proofs.CoreRules
import PointsTo.Proofs.Declarations
import PointsTo.Proofs.Derivations
import PointsTo.Proofs.Dispatch
import PointsTo.Proofs.Dormancy
import PointsTo.Proofs.EdgeKinds
import PointsTo.Proofs.EdgeStores
import PointsTo.Proofs.Edits
import PointsTo.Proofs.Erasure
import PointsTo.Proofs.EventReactions
import PointsTo.Proofs.Facts
import PointsTo.Proofs.Failures
import PointsTo.Proofs.FirstOccurrences
import PointsTo.Proofs.FlowEdges
import PointsTo.Proofs.FlowRequests
import PointsTo.Proofs.Frames
import PointsTo.Proofs.Homes
import PointsTo.Proofs.Indexes
import PointsTo.Proofs.InterfaceOrder
import PointsTo.Proofs.IntermediateStates
import PointsTo.Proofs.Interning
import PointsTo.Proofs.Interruptions
import PointsTo.Proofs.LambdaBounds
import PointsTo.Proofs.LambdaCalls
import PointsTo.Proofs.LambdaClosure
import PointsTo.Proofs.LambdaDerivations
import PointsTo.Proofs.LambdaEdges
import PointsTo.Proofs.LambdaFacts
import PointsTo.Proofs.LambdaFixpoint
import PointsTo.Proofs.LambdaRequests
import PointsTo.Proofs.LambdaRules
import PointsTo.Proofs.LambdaWiring
import PointsTo.Proofs.LeastFixpoint
import PointsTo.Proofs.Licences
import PointsTo.Proofs.Listings
import PointsTo.Proofs.LogClosure
import PointsTo.Proofs.LogLines
import PointsTo.Proofs.Members
import PointsTo.Proofs.Memory
import PointsTo.Proofs.MockIdentity
import PointsTo.Proofs.NameClosure
import PointsTo.Proofs.Observers
import PointsTo.Proofs.Order
import PointsTo.Proofs.Origins
import PointsTo.Proofs.Patches
import PointsTo.Proofs.Places
import PointsTo.Proofs.PluginConfinement
import PointsTo.Proofs.PluginLicences
import PointsTo.Proofs.PluginPrecedence
import PointsTo.Proofs.PluginRequests
import PointsTo.Proofs.PluginRules
import PointsTo.Proofs.PluginWarrants
import PointsTo.Proofs.Precedence
import PointsTo.Proofs.Processing
import PointsTo.Proofs.Questions
import PointsTo.Proofs.ReceiverCoherence
import PointsTo.Proofs.Reconstruction
import PointsTo.Proofs.Recording
import PointsTo.Proofs.Refinement
import PointsTo.Proofs.ReflectionActions
import PointsTo.Proofs.ReflectionBounds
import PointsTo.Proofs.ReflectionCalls
import PointsTo.Proofs.ReflectionMemory
import PointsTo.Proofs.ReflectionOffers
import PointsTo.Proofs.ReflectionReactions
import PointsTo.Proofs.ReflectionRequests
import PointsTo.Proofs.Reloading
import PointsTo.Proofs.Requests
import PointsTo.Proofs.Resolution
import PointsTo.Proofs.RunBounds
import PointsTo.Proofs.RunRelations
import PointsTo.Proofs.Runs
import PointsTo.Proofs.Scanning
import PointsTo.Proofs.Scoping
import PointsTo.Proofs.Shadowing
import PointsTo.Proofs.Simulation
import PointsTo.Proofs.SubtypeOrder
import PointsTo.Proofs.Suggestions
import PointsTo.Proofs.Tables
import PointsTo.Proofs.Termination
import PointsTo.Proofs.Texts
import PointsTo.Proofs.ToldEvents
import PointsTo.Proofs.Traversals
import PointsTo.Proofs.TypeFilters
import PointsTo.Proofs.Universe
import PointsTo.Proofs.View
import PointsTo.Proofs.Walks
import PointsTo.Proofs.Warrants
import PointsTo.Proofs.WorklistSteps
import PointsTo.Proofs.YamlBlocks
import PointsTo.Proofs.YamlDocuments
import PointsTo.Proofs.YamlNodes
import PointsTo.Proofs.YamlQuotes
import PointsTo.Proofs.YamlScalars
import PointsTo.Proofs.YamlWords
import PointsTo.Reflection
import PointsTo.Reflection.ActionModel
import PointsTo.Reflection.Api
import PointsTo.Reflection.ClassModel
import PointsTo.Reflection.Invocation
import PointsTo.Reflection.Log
import PointsTo.Reflection.LogModel
import PointsTo.Reflection.Meta
import PointsTo.Reflection.StringModel
import PointsTo.Script
import PointsTo.Selector
import PointsTo.Service
import PointsTo.Solver
import PointsTo.Solver.Machine
import PointsTo.Solver.Rules
import PointsTo.Stmt
import PointsTo.Text.Blank
import PointsTo.Text.Decimal
import PointsTo.Text.EditDistance
import PointsTo.Waitlist
import PointsTo.Yaml.Character
import PointsTo.Yaml.Cursor
import PointsTo.Yaml.Node
import PointsTo.Yaml.Printer
import PointsTo.Yaml.Reader
import PointsTo.Yaml.Scalar
import PointsTo.Yaml.Style
import PointsTo.Yaml.Word
