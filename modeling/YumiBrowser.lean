import YumiBrowser.Crypto.Aead
import YumiBrowser.Network.Replay
import YumiBrowser.Network.ReliableChannel
import YumiBrowser.Network.OrderedDelivery
import YumiBrowser.Network.IceAgreement
import YumiBrowser.Network.KeyChoice
import YumiBrowser.Network.EpochRekey
import YumiBrowser.Network.KeyAgreement
import YumiBrowser.Network.SecureDelivery
import YumiBrowser.Registrar.FullSync
import YumiBrowser.Registrar.BanMerge
import YumiBrowser.Registrar.EpochAdoption
import YumiBrowser.Registrar.RoundTrip
import YumiBrowser.Registrar.HeaderAuthenticity
import YumiBrowser.Registrar.Idempotence
import YumiBrowser.Registrar.Convergence
import YumiBrowser.Registrar.Lineage
import YumiBrowser.Registrar.Atomicity
import YumiBrowser.Registrar.Join
import YumiBrowser.Registrar.Invites
import YumiBrowser.Registrar.RemoteAuthorization
import YumiBrowser.Registrar.RoleGrants
import YumiBrowser.Registrar.TamperEvidence
import YumiBrowser.Registrar.DeltaSize
import YumiBrowser.Registrar.EntryIdentity
import YumiBrowser.Registrar.VersionOrder
import YumiBrowser.Registrar.Membership
import YumiBrowser.Registrar.Effects
import YumiBrowser.Registrar.GroupCipher
import YumiBrowser.Registrar.HeaderRuns
import YumiBrowser.Registrar.HeaderSeal
import YumiBrowser.Registrar.ForkListing
import YumiBrowser.Registrar.ChainCounts
import YumiBrowser.Registrar.Pruning
import YumiBrowser.Registrar.SigningRuns
import YumiBrowser.Registrar.InviteBlob
import YumiBrowser.Registrar.DecryptBounds
import YumiBrowser.Registrar.Blocklist
import YumiBrowser.Registrar.Behavior
import YumiBrowser.Memory.HandleTable
import YumiBrowser.Memory.Availability
import YumiBrowser.Client.SyncConvergence
import YumiBrowser.Client.AttestationRuns
import YumiBrowser.Client.Bootstrap
import YumiBrowser.Client.Silence
import YumiBrowser.Client.Broadcast
import YumiBrowser.Network.RetransmitRuns
import YumiBrowser.Network.EndToEnd
import YumiBrowser.Network.RateSamples
import YumiBrowser.Network.Inflight
import YumiBrowser.Network.WindowFloor
import YumiBrowser.Network.IceFraming
import YumiBrowser.Network.GenerationRekey
import YumiBrowser.Network.RejectedPackets
import YumiBrowser.Network.FragmentRuns
import YumiBrowser.Client.MeshOrigin
import YumiBrowser.Client.MeshRoutes
import YumiBrowser.Client.MeshHops
import YumiBrowser.Client.MeshRate
import YumiBrowser.Client.LockJoin
import YumiBrowser.Client.SlotLife
import YumiBrowser.Client.ParsingBounds
import YumiBrowser.Client.Chunks
import YumiBrowser.Client.BootTransfer
import YumiBrowser.Duckdb.Quota
import YumiBrowser.Duckdb.HostMemory
import YumiBrowser.Duckdb.ChunkLife
import YumiBrowser.Duckdb.TwoStyles
import YumiBrowser.Dashboard.GuestMemory
import YumiBrowser.Dashboard.RunningApps
import YumiBrowser.Dashboard.Storage
import YumiBrowser.Dashboard.SoleApp
import YumiBrowser.Dashboard.DamageTracker
import YumiBrowser.Dashboard.TextIndices
import YumiBrowser.Dashboard.TextInput
import YumiBrowser.Dashboard.MediaQueue
import YumiBrowser.Dashboard.GroupConnections
import YumiBrowser.Dashboard.FileDialogs
import YumiBrowser.Dashboard.PointerRouting
import YumiBrowser.Memory.RecoveryRefinement
import YumiBrowser.Registrar.WireReader
import YumiBrowser.Crypto.AeadFraming
import YumiBrowser.Crypto.Hkdf
import YumiBrowser.Crypto.VendoredSkein
