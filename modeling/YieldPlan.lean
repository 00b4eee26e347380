import YieldPlan.DenseMap
import YieldPlan.Description.Encode
import YieldPlan.Main
import YieldPlan.Proofs.WalkCoverage
import YieldPlan.Proofs.WalkFixedPoint
import YieldPlan.Proofs.PhaseSteps
import YieldPlan.Proofs.PhaseCoverage
import YieldPlan.Proofs.StaticReduction
import YieldPlan.Proofs.DepthFirst
import YieldPlan.Proofs.ProgramShape
import YieldPlan.Proofs.QuotientClosure
import YieldPlan.Proofs.CallOrder
import YieldPlan.Proofs.ReachabilityNodes
import YieldPlan.Proofs.ReachabilitySegments
import YieldPlan.Proofs.ReachabilityExact
import YieldPlan.Proofs.OwnedCode
import YieldPlan.Proofs.ThreadRuns
import YieldPlan.Proofs.AnalysisStages
import YieldPlan.Proofs.ThreadPaths
import YieldPlan.Proofs.ThreadSites
import YieldPlan.Proofs.MultiInstance
import YieldPlan.Proofs.LockFlow
import YieldPlan.Proofs.LockEntries
import YieldPlan.Proofs.HeldLocks
import YieldPlan.Proofs.WalkOutcome
import YieldPlan.Proofs.PhaseStability
import YieldPlan.Proofs.LoweredPrograms
import YieldPlan.Proofs.ClosedWalks
import YieldPlan.Proofs.LoopBounds
import YieldPlan.Proofs.AnalysisOutcome
import YieldPlan.Proofs.ReductionOutcome
import YieldPlan.Proofs.RegionPaths
import YieldPlan.Proofs.WalkInvariants
import YieldPlan.Proofs.OwnershipExact
import YieldPlan.Proofs.OpenBlocks
import YieldPlan.Proofs.FiledRequests
import YieldPlan.Proofs.OwnedTracking
import YieldPlan.Proofs.VisitedCode
import YieldPlan.Proofs.ThreadRequests
import YieldPlan.Proofs.PhaseMonitor
import YieldPlan.Proofs.PhaseVariable
import YieldPlan.Proofs.QuotientHistory
import YieldPlan.Proofs.WalkAgreement
import YieldPlan.Proofs.ModeAgreement
import YieldPlan.Proofs.OwnershipOutcome
import YieldPlan.Proofs.ProcedureMovers
import YieldPlan.Proofs.RegionSources
import YieldPlan.Proofs.Recursion
import YieldPlan.Proofs.AliasComponents
import YieldPlan.Proofs.ConflictIndex
import YieldPlan.Proofs.RegionScan
import YieldPlan.Proofs.LockPaths
import YieldPlan.Proofs.LockMeet
import YieldPlan.Proofs.AliasPartition
import YieldPlan.Proofs.OracleMonotonicity
import YieldPlan.Proofs.WalkBounds
import YieldPlan.Proofs.CommittedCycles
import YieldPlan.Proofs.RequestNumbers
import YieldPlan.Proofs.SequentialPrograms
import YieldPlan.Proofs.NameResolution
import YieldPlan.Proofs.LoweringExact
import YieldPlan.Proofs.ProgramLayout
import YieldPlan.Proofs.AnnotatedPlan
import YieldPlan.Proofs.RequestHistory
import YieldPlan.Proofs.OptionSettings
import YieldPlan.Proofs.OperationTexts
import YieldPlan.Proofs.JsonText
import YieldPlan.Proofs.DescriptionForms
import YieldPlan.Proofs.GrowingRelation
import YieldPlan.Proofs.ShapeCheck
import YieldPlan.Proofs.BuildHistory
