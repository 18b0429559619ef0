import Spkdfs.Lib.Run
import Spkdfs.Lib.KeyedMap
import Spkdfs.Lib.PathText
import Spkdfs.Lib.Registers
import Spkdfs.Lib.Hierarchy
import Spkdfs.Lib.Delimited
import Spkdfs.Lib.Chunks
import Spkdfs.Lib.Windows
import Spkdfs.Lib.SortedSearch
import Spkdfs.Lib.SharedFile
import Spkdfs.Lib.Json
import Spkdfs.Lib.Effects
import Spkdfs.Common.Utils
import Spkdfs.Common.Exception
import Spkdfs.Common.StorageType
import Spkdfs.Common.Inode
import Spkdfs.Common.InodeJson
import Spkdfs.Common.StorageText
import Spkdfs.Common.Paths
import Spkdfs.Common.Node
import Spkdfs.Common.Nodes
import Spkdfs.Common.Blocks
import Spkdfs.Common.PathLocks
import Spkdfs.Node.RocksDB
import Spkdfs.Node.RaftNN
import Spkdfs.Node.Namenode
import Spkdfs.Node.System
import Spkdfs.Node.Server
import Spkdfs.Node.Detector
import Spkdfs.Node.Selection
import Spkdfs.Node.HealthCheck
import Spkdfs.Node.LogEntry
import Spkdfs.Metadata.Replay
import Spkdfs.Metadata.Tree
import Spkdfs.Metadata.Listing
import Spkdfs.Metadata.FileFrame
import Spkdfs.Metadata.ParentFound
import Spkdfs.Metadata.LockRefresh
import Spkdfs.Metadata.Serial
import Spkdfs.Metadata.RemoteLock
import Spkdfs.Metadata.Replicas
import Spkdfs.Client.Put
import Spkdfs.Metadata.Root
import Spkdfs.Metadata.Naming
import Spkdfs.Node.Service
import Spkdfs.Node.Replies
import Spkdfs.Client.Transfer
import Spkdfs.Client.Roundtrip
import Spkdfs.Client.Upload
import Spkdfs.Client.Download
import Spkdfs.Client.Session
import Spkdfs.Client.FailStop
import Spkdfs.Client.Fsync
import Spkdfs.Client.BlockCache
import Spkdfs.Client.Alignment
import Spkdfs.Client.Exact
import Spkdfs.Client.Window
import Spkdfs.Client.Writes
import Spkdfs.Client.Extent
import Spkdfs.Client.Overwrites
import Spkdfs.Client.Opening
import Spkdfs.Client.Locking
import Spkdfs.Client.Usable
import Spkdfs.Client.Fuse
import Spkdfs.Client.Startup
import Spkdfs.Client.Pending
import Spkdfs.Client.Mount
import Spkdfs.Client.MountNames
import Spkdfs.Node.Datanode
import Spkdfs.Client.BlockCluster
import Spkdfs.Node.Membership
import Spkdfs.Node.TextStore
import Spkdfs.Node.Failover
import Spkdfs.Client.Connect
import Spkdfs.Client.Copy
