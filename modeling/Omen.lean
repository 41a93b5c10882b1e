import Omen.Library.ByteMemory
import Omen.Library.Bitmap
import Omen.Library.Pool
import Omen.Library.SpanLedger
import Omen.Library.PointerTree
import Omen.Library.RecordChain
import Omen.Disk.Driver
import Omen.Ext2.Partition
import Omen.Ext2.Block
import Omen.Ext2.BlockDriver
import Omen.Ext2.Registration
import Omen.Ext2.Inode
import Omen.Ext2.ReadBlocks
import Omen.Ext2.ReadInodeBlocks
import Omen.Ext2.WriteBlocks
import Omen.Ext2.WriteInodeBlocks
import Omen.Ext2.BlockFile
import Omen.Ext2.ReadBytes
import Omen.Ext2.Directory
import Omen.Ext2.Path
import Omen.Ext2.Lookup
import Omen.Ext2.GroupBitmap
import Omen.Ext2.BlockAlloc
import Omen.Ext2.BlockAccounting
import Omen.Ext2.BlockList
import Omen.Ext2.BlockFaults
import Omen.Ext2.InodeAlloc
import Omen.Ext2.InodeDelete
import Omen.Memory.BitfieldAllocator
import Omen.Memory.BitfieldBounds
import Omen.Memory.BitfieldSearch
import Omen.Memory.BitfieldReuse
import Omen.Library.BuddyTree
import Omen.Memory.LinkedList
import Omen.Memory.ListSequences
import Omen.Memory.WordBitmap
import Omen.Memory.BuddyAllocator
import Omen.Memory.BuddyBlocks
import Omen.Memory.BuddyCalls
import Omen.Memory.BuddyRuns
import Omen.Memory.BuddyCreate
import Omen.Memory.BuddySound
import Omen.Memory.BuddyRelease
import Omen.Memory.BuddyAllocFree
import Omen.Library.RadixTable
import Omen.Memory.PageTables
import Omen.Memory.PageEntries
import Omen.Memory.PageMapping
import Omen.Memory.PageWalkers
import Omen.Memory.PageAgreement
import Omen.Memory.PagePerms
import Omen.Process.SchedOrder
import Omen.Process.Suspend
import Omen.Process.SignalContext
import Omen.Process.ForkFiles
import Omen.Process.Munmap
import Omen.Process.InitialStack
import Omen.Process.Exec
import Omen.Library.PathNames
import Omen.Library.RotatingSearch
import Omen.Vfs.Paths
import Omen.Vfs.Mounts
import Omen.Vfs.Normalize
import Omen.Vfs.WorkingDirectory
import Omen.Vfs.DirectoryListing
import Omen.Library.Ring
import Omen.Library.Runs
import Omen.Terminal.TtyRings
import Omen.Terminal.Modes
import Omen.Devices.Registry
import Omen.Terminal.Reads
import Omen.Process.SharedSignals
import Omen.Ext2.InodeStore
import Omen.Ext2.PartialTransfers
import Omen.Ext2.BlockListMap
import Omen.Ext2.DirectoryWalks
import Omen.Ext2.PathSplit
import Omen.Ext2.Geometry
import Omen.Ext2.ErrorLog
import Omen.Process.FilePosition
import Omen.Memory.PageProtection
import Omen.Process.StackGrowth
import Omen.Process.ElfBounds
import Omen.Process.StagingBuffer
import Omen.Process.Pselect
import Omen.Process.PendingSet
import Omen.Devices.Fifo
import Omen.Vfs.PartitionTable
import Omen.Terminal.Subscribers
import Omen.Text.Strtok
import Omen.Devices.CircularList
import Omen.Devices.FifoQueue
import Omen.Text.Memmove
import Omen.Vfs.DirectoryCursor
import Omen.Crypto.Md5
import Omen.Concurrency.Barrier
import Omen.Text.NumberPrint
import Omen.Devices.SerialLines
import Omen.Devices.Console
import Omen.Devices.Madt
import Omen.Devices.Mouse
