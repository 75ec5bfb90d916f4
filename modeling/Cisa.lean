import Cisa.Lib.Rows
import Cisa.Lib.Worklist
import Cisa.Lib.Walk
import Cisa.Lib.Fold
import Cisa.Ir
import Cisa.GlobalContext
import Cisa.Ancestors
import Cisa.CallGraph.Common
import Cisa.CallGraph.Layers
import Cisa.CallGraph.Confine
import Cisa.CallGraph.Targets
import Cisa.CallGraph.Pass
import Cisa.CallGraph.TypeDive
import Cisa.CallGraph.Phases
import Cisa.CallGraph.ModuleTables
import Cisa.CallGraph.Invalidation
import Cisa.CallGraph.Runs
import Cisa.CallGraph.DefinitionMap
import Cisa.CallGraph.SignatureTable
import Cisa.CallGraph.Resolution
import Cisa.CallGraph.Provenance
import Cisa.CallGraph.DeletedFunctions
import Cisa.CallGraph.Edges
import Cisa.CallGraph.AncestorFacts
import Cisa.CallGraph.Chains
import Cisa.CallGraph.Writes
import Cisa.CallGraph.Searches
import Cisa.CallGraph.FirstWalk
import Cisa.CallGraph.InitialRun
import Cisa.CallGraph.StoredFunctions
import Cisa.Analyzer.Analyzer
import Cisa.Analyzer.Oper
import Cisa.Analyzer.Sub
import Cisa.AnalyzerManager.Manager
import Cisa.AnalyzerManager.CarriedTags
import Cisa.Analyzer.TopLevelTags
import Cisa.AnalyzerManager.LineMap
import Cisa.CallGraph.DirectCalls
import Cisa.CallGraph.LoadedModules
import Cisa.AnalyzerManager.Commits
import Cisa.CallGraph.FailingFiles
import Cisa.AnalyzerManager.CommitRuns
import Cisa.AnalyzerManager.LiveKeys
import Cisa.AnalyzerManager.TopLevelNames
import Cisa.AnalyzerManager.NewFiles
import Cisa.AnalyzerManager.CarriedResults
import Cisa.CallGraph.ModuleFacts
import Cisa.CallGraph.ExactSearches
import Cisa.CallGraph.SameTypeFacts
import Cisa.CallGraph.LoadOrder
import Cisa.ActorCalls
import Cisa.CallGraph.Narrowing
import Cisa.CallGraph.SearchEnds
import Cisa.CallGraph.Propagation
import Cisa.CallGraph.DependentTypes
import Cisa.CallGraph.SetDefinition
import Cisa.CallGraph.EscapedLayers
import Cisa.CallGraph.QueryOrder
import Cisa.CallGraph.Initializers
import Cisa.Lib.Marked
import Cisa.Scripts.UnifiedDiff
import Cisa.Scripts.FileSections
import Cisa.CallGraph.UnsharedInitializers
import Cisa.CallGraph.MirroredTables
import Cisa.CallGraph.LayerWalks
import Cisa.Analyzer.OperandWalk
import Cisa.AnalyzerManager.ChangedFunctions
import Cisa.AnalyzerManager.CommittedFiles
import Cisa.Analyzer.FieldNameTable
import Cisa.Analyzer.AccessPaths
import Cisa.Analyzer.LocalTags
import Cisa.AnalyzerManager.PrintedJson
import Cisa.CallGraph.StructHashes
import Cisa.CallGraph.FreshDirectCalls
import Cisa.CallGraph.CandidateCallers
import Cisa.CallGraph.LayerlessCalls
import Cisa.CallGraph.FreshCallees
import Cisa.CallGraph.UpdateFrame
import Cisa.Lib.Trail
import Cisa.CallGraph.UnrollLoops
import Cisa.AnalyzerManager.OwnTags
import Cisa.AnalyzerManager.FreshTags
import Cisa.AnalyzerManager.SubsystemResults
import Cisa.AnalyzerManager.OperationResults
import Cisa.AnalyzerManager.ResultStore
import Cisa.AnalyzerManager.FilesOfCommit
import Cisa.Lib.FileTree
import Cisa.AnalyzerManager.ResultTree
import Cisa.Scripts.Worktree
import Cisa.Scripts.MainLoop
