import WuKongIM.Raft.ElectionSafety
import WuKongIM.Raft.VoterCommit
import WuKongIM.Raft.DiskAlign
import WuKongIM.Raft.FlagSafety
import WuKongIM.Raft.TermTable
import WuKongIM.Raft.AppliedAck
import WuKongIM.Raft.Monotone
import WuKongIM.Raft.QueueRuns
import WuKongIM.Raft.ApplyWaitSafety
import WuKongIM.WKDB.MessageUsers
import WuKongIM.Store.ApplyCuts
import WuKongIM.WKDB.CacheRefills
import WuKongIM.WKDB.DeviceCoherence
import WuKongIM.WKDB.LocalUsers
import WuKongIM.WKDB.EventNumbers
import WuKongIM.WKCache.EventRepeats
import WuKongIM.WKDB.BatchCommits
import WuKongIM.WKDB.SearchOutboxWork
import WuKongIM.WKDB.SearchOutboxRanges
import WuKongIM.WKDB.SearchOutboxAck
import WuKongIM.WKDB.InfoCoherence
import WuKongIM.API.FinishedLanes
import WuKongIM.Store.ConversationCodec
import WuKongIM.Store.VersionedCommands
import WuKongIM.Nodes.Failover
import WuKongIM.Nodes.Memberships
import WuKongIM.Raft.HandOverSafety
import WuKongIM.Delivery.DeliveryRuns
import WuKongIM.Users.RecoverySafety
import WuKongIM.Users.EventBatches
import WuKongIM.Users.ForwardedEvents
import WuKongIM.Channels.SendPermission
import WuKongIM.API.ReadPositions
import WuKongIM.Server.NodeClient
import WuKongIM.Server.ProxyProto
import WuKongIM.Delivery.PendingDelivery
