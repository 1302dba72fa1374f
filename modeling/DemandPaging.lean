import DemandPaging.Fork
import DemandPaging.Host
import DemandPaging.Lock
import DemandPaging.Mapping
import DemandPaging.Segment
import DemandPaging.UserCopy
import DemandPaging.Proofs.Acts
import DemandPaging.Proofs.Calls
import DemandPaging.Proofs.FileBytes
import DemandPaging.Proofs.FlatMemory
import DemandPaging.Proofs.Forked
import DemandPaging.Proofs.MappedFile
import DemandPaging.Proofs.OneToOne
import DemandPaging.Proofs.SlotAccounts
import DemandPaging.Proofs.Unforked
import DemandPaging.Proofs.Unmapping
import DemandPaging.Proofs.Answers
import DemandPaging.Proofs.Retries
import DemandPaging.Proofs.Destroyed
import DemandPaging.Proofs.Plenty
import DemandPaging.Proofs.Contiguous
import DemandPaging.Proofs.DirtyBit
import DemandPaging.Proofs.Partition
import DemandPaging.Proofs.Victims
import DemandPaging.Proofs.Refusals
import DemandPaging.Proofs.Dropped
import DemandPaging.Proofs.Handles
import DemandPaging.Proofs.Secrecy
import DemandPaging.Proofs.MappingRules
import DemandPaging.Proofs.FaultDecision
import DemandPaging.Proofs.ClaimRetry
import DemandPaging.Proofs.Prefixes
import DemandPaging.Proofs.NextFit
import DemandPaging.Proofs.SlotMap
import DemandPaging.Proofs.FlatMap
import DemandPaging.Proofs.Shares
import DemandPaging.Proofs.Feeding
import DemandPaging.Proofs.SegmentLayout
import DemandPaging.Proofs.SegmentBytes
import DemandPaging.Proofs.SegmentRules
import DemandPaging.Proofs.BitList
import DemandPaging.Proofs.FrameNumbers
import DemandPaging.Proofs.OneSweep
