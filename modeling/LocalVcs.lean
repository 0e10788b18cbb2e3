import LocalVcs.Main
import LocalVcs.Proofs.Answers
import LocalVcs.Proofs.EarlyFaults
import LocalVcs.Proofs.History.LowestCommon
import LocalVcs.Proofs.SavedObjects
import LocalVcs.Proofs.SplitPoint
import LocalVcs.Proofs.CommitOutcome
import LocalVcs.Proofs.Pointers
import LocalVcs.Proofs.Printed
import LocalVcs.Proofs.Spared
import LocalVcs.Proofs.Subdirectories
import LocalVcs.Proofs.MergedBranches
import LocalVcs.Proofs.NextCommit
import LocalVcs.Proofs.RealChanges
import LocalVcs.Proofs.BranchMap
import LocalVcs.Proofs.HeadRoundTrip
import LocalVcs.Proofs.ThereAndBack
import LocalVcs.Proofs.UserLinks
import LocalVcs.Proofs.AddedFiles
import LocalVcs.Proofs.Abbreviations
import LocalVcs.Proofs.StagingOrder
import LocalVcs.Proofs.RemoveAndAdd
import LocalVcs.Proofs.History.DepthFirst
import LocalVcs.Proofs.HandedOut
import LocalVcs.Proofs.Confined
import LocalVcs.Proofs.StoredStaging
