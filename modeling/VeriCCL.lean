import VeriCCL.DeadlockFreedom
import VeriCCL.FlowOrder
import VeriCCL.LocalOrder
import VeriCCL.ReplaySoundness
import VeriCCL.OutputAgreement
import VeriCCL.PredictProgress
import VeriCCL.Checkpoint
import VeriCCL.ErrorBudget
import VeriCCL.Partition
import VeriCCL.ControlRetention
import VeriCCL.EventRecovery
import VeriCCL.BatchCompletion
import VeriCCL.RuntimeReceipts
import VeriCCL.PredictTermination
import VeriCCL.LedgerAtomicity
import VeriCCL.PackingOptimality
import VeriCCL.RouteGreedy
import VeriCCL.RouteAcceptance
import VeriCCL.HistoryReuse
import VeriCCL.ClockSync
import VeriCCL.PayloadConservation
import VeriCCL.RejectedRequest
import VeriCCL.StorageAliases
import VeriCCL.OutsideExactness
import VeriCCL.CurveFitting
import VeriCCL.StreamRedaction
import VeriCCL.OwnershipFailures
import VeriCCL.BddAlgebra
import VeriCCL.DeadlockVerdict
import VeriCCL.LegalStrategies
import VeriCCL.CanonicalForm
import VeriCCL.CandidatePaths
import VeriCCL.CausalSweeps
import VeriCCL.RouteSafety
import VeriCCL.StorageRaces
import VeriCCL.MandatoryOrder
import VeriCCL.ProofBounds
