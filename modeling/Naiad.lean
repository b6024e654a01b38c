import Naiad.Lib.BigEndian
import Naiad.Lib.IdTable
import Naiad.Lib.Table
import Naiad.Lib.Run
import Naiad.Lib.DeltaLog
import Naiad.Core.Hash
import Naiad.Core.Bucket
import Naiad.Core.Budget
import Naiad.Server.Store
import Naiad.Core.Tag
import Naiad.Netproto.Wire
import Naiad.Server.Mapping
import Naiad.Server.Write
import Naiad.Server.Evolve
import Naiad.Server.Read
import Naiad.Server.Reply
import Naiad.Server.Sync
import Naiad.Netproto.Window
import Naiad.Lib.Loop
import Naiad.Netproto.Fetch
import Naiad.Lib.Chain
import Naiad.Lib.Reach
import Naiad.Core.Relations
import Naiad.Core.Query
import Naiad.Db.Schema
import Naiad.Db.Graph
import Naiad.Db.Display
import Naiad.Db.Search
import Naiad.Db.Files
import Naiad.Db.Locations
import Naiad.Daemon.Scan
import Naiad.Daemon.OneContent
import Naiad.Lib.Sort
import Naiad.Server.Backend
import Naiad.Server.Stream
import Naiad.Db.Pull
import Naiad.Db.Masks
import Naiad.Db.Merges
import Naiad.Db.Domains
import Naiad.Db.Services
import Naiad.Daemon.Caps
import Naiad.Netproto.Sign
import Naiad.Lib.LastWrite
import Naiad.Server.Status
import Naiad.Server.HashCount
import Naiad.Bridge.State
import Naiad.Bridge.Sync
import Naiad.Bridge.Mirror
import Naiad.Bridge.Follow
import Naiad.Bridge.Seed
import Naiad.Bridge.Load
import Naiad.Bridge.Finish
import Naiad.Bridge.Rebuild
import Naiad.Bridge.Cursor
import Naiad.Lib.Json
import Naiad.Server.Body
import Naiad.Server.Charge
import Naiad.Lib.Numbering
import Naiad.Server.Deferred
import Naiad.Server.RelationSync
import Naiad.Server.Domain
import Naiad.Daemon.Backfill
import Naiad.Bridge.Sidecar
import Naiad.Bridge.SidecarSync
import Naiad.Bridge.SidecarFollow
import Naiad.Bridge.SidecarSeed
import Naiad.Bridge.SidecarResolve
import Naiad.Bridge.SidecarHistory
import Naiad.Bridge.SidecarSnapshot
import Naiad.Bridge.SidecarCompose
import Naiad.Db.Recanonicalize
import Naiad.Lib.Tally
import Naiad.Db.Counts
import Naiad.Daemon.TagLane
import Naiad.Daemon.ThumbQueue
import Naiad.Daemon.ThumbStream
import Naiad.Core.Tokens
import Naiad.Ui.Completion
import Naiad.Daemon.Watch
import Naiad.Daemon.ScanRace
import Naiad.Bridge.Parity
import Naiad.Bridge.SameTags
import Naiad.Daemon.DomainPull
import Naiad.Daemon.Repull
import Naiad.Bridge.HydrusWire
import Naiad.Bridge.TagIds
import Naiad.Bridge.TagSets
import Naiad.Bridge.SidecarReads
import Naiad.Db.Staging
import Naiad.Lib.Autocommit
import Naiad.Db.DropService
import Naiad.Daemon.PathLookup
import Naiad.Db.Subtree
import Naiad.Db.HydrusImport
import Naiad.Lib.Ranking
import Naiad.Db.Completion
import Naiad.Core.RelationLaws
import Naiad.Core.RelationSections
import Naiad.Db.BlockRules
import Naiad.Core.QueryGrammar
import Naiad.Netproto.Chunks
import Naiad.Netproto.DeltaFetch
import Naiad.Db.Rejections
import Naiad.Server.BridgeReplay
import Naiad.Lib.Resolve
import Naiad.Db.CanonicalTags
import Naiad.Db.RelationMerge
import Naiad.Db.DeltaMerge
import Naiad.Db.FullMerge
import Naiad.Daemon.RelationPull
import Naiad.Bridge.Watermark
import Naiad.Server.Advice
import Naiad.Daemon.Contributor
import Naiad.Daemon.Unwatch
import Naiad.Lib.Strips
import Naiad.Ui.Grid
import Naiad.Ui.ThumbFetch
import Naiad.Lib.Rollup
import Naiad.Server.Stats
import Naiad.Ui.StageLoader
import Naiad.Ui.StageBalance
import Naiad.Lib.Reading
import Naiad.Db.RelationCache
import Naiad.Lib.Join
import Naiad.Db.Detail
import Naiad.Db.Popover
import Naiad.Bridge.SeedRuns
import Naiad.Netproto.Auth
import Naiad.Server.Accounts
import Naiad.Server.Node
import Naiad.Server.Authority
import Naiad.Server.Moderation
import Naiad.Server.Handshake
import Naiad.Daemon.NewKeys
import Naiad.Daemon.LateMerge
import Naiad.Daemon.Overlap
import Naiad.Daemon.Startup
import Naiad.Daemon.ReadPool
import Naiad.Daemon.Reject
