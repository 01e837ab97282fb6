import TinyKV.Proofs.Follower
import TinyKV.Proofs.TornTail
import TinyKV.Proofs.AppliedState
import TinyKV.Proofs.LogRepair
import TinyKV.Proofs.LeaderHints
import TinyKV.Proofs.Numbers
import TinyKV.Proofs.Reservations
import TinyKV.Proofs.ModeReplies
import TinyKV.Proofs.VoteTally
import TinyKV.Proofs.Membership
import TinyKV.Proofs.Terms
import TinyKV.Proofs.StateMachineSafety
import TinyKV.Proofs.BlockQueue
import TinyKV.Proofs.RecordCodec
import TinyKV.Proofs.UnseenEntries
import TinyKV.Proofs.SnapshotReplacement
import TinyKV.Proofs.ReplicaChoice
import TinyKV.Proofs.ReadFallback
import TinyKV.Proofs.ConfigFile
import TinyKV.Proofs.Log
import TinyKV.Proofs.Standalone
