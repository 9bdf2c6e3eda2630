import PermissionedLedger.Main
import PermissionedLedger.Proofs.Chain.Faults
import PermissionedLedger.Proofs.Chain.Orders
import PermissionedLedger.Proofs.Chain.Answers
import PermissionedLedger.Proofs.Chain.Trust
import PermissionedLedger.Proofs.Chain.Outcomes
import PermissionedLedger.Proofs.Chain.Restarts
import PermissionedLedger.Proofs.Chain.Authority
import PermissionedLedger.Proofs.Chain.Supply
import PermissionedLedger.Proofs.Chain.Checkpoints
import PermissionedLedger.Proofs.Chain.Cascade
import PermissionedLedger.Proofs.Identity.BlockHash
import PermissionedLedger.Proofs.Chain.FastPath
import PermissionedLedger.Proofs.Coins.Undo
import PermissionedLedger.Proofs.Wire.BlockFiles
import PermissionedLedger.Proofs.Work.Retargets
import PermissionedLedger.Proofs.Tree.Signers
import PermissionedLedger.Proofs.Tree.MedianTime
import PermissionedLedger.Proofs.Coins.Overlay
import PermissionedLedger.Proofs.Chain.Places
import PermissionedLedger.Proofs.Chain.OrphanIndex
import PermissionedLedger.Proofs.Store.Histories
import PermissionedLedger.Proofs.Network.Subsidies
import PermissionedLedger.Proofs.Identity.Signing
import PermissionedLedger.Proofs.Tree.BranchWork
import PermissionedLedger.Proofs.Chain.OrphanRoots
