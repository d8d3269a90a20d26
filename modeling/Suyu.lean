import Suyu.Audio.AdpcmDecode
import Suyu.Audio.MixBuffers
import Suyu.Audio.MixContext
import Suyu.Audio.MixDistances
import Suyu.Audio.MixRuns
import Suyu.Audio.MixSearch
import Suyu.Audio.NodeStates
import Suyu.Common.AddressSpace
import Suyu.Common.AddressSpaceRefine
import Suyu.Common.AllocatorFailure
import Suyu.Common.BitSet
import Suyu.Common.FlatAllocator
import Suyu.Common.LruCache
import Suyu.Common.OverlapRangeSet
import Suyu.Common.ParamPackage
import Suyu.Common.RangeMap
import Suyu.Common.RingBuffer
import Suyu.Common.SlotVector
import Suyu.Common.Uint128
import Suyu.Core.CheatText
import Suyu.Core.CoreTiming
import Suyu.Core.CoreTimingAdvance
import Suyu.Core.CoreTimingRuns
import Suyu.Core.DeviceBlockAccess
import Suyu.Core.DeviceBlockRuns
import Suyu.Core.DeviceMemoryManager
import Suyu.Core.DmntCheatBlocks
import Suyu.Core.DmntCheatEncoding
import Suyu.Core.DmntCheatSafety
import Suyu.Core.DmntCheatVm
import Suyu.Core.Memory
import Suyu.Core.MemoryBlocks
import Suyu.Core.MemoryCopy
import Suyu.Core.MemoryMarks
import Suyu.Core.MemorySpan
import Suyu.Core.MultiAddressContainer
import Suyu.Core.PagesCachedCount
import Suyu.FileSys.AlignmentMatching
import Suyu.FileSys.BlzDecompress
import Suyu.FileSys.BucketTree
import Suyu.FileSys.BucketTreeFind
import Suyu.FileSys.BucketTreeWalk
import Suyu.FileSys.IndirectRead
import Suyu.FileSys.IndirectScan
import Suyu.FileSys.IndirectStorage
import Suyu.FileSys.IpsPatch
import Suyu.FileSys.IpsPatchExact
import Suyu.FileSys.KernelExecutable
import Suyu.FileSys.NormalizedPath
import Suyu.FileSys.ParentReplacement
import Suyu.FileSys.PathAcceptor
import Suyu.FileSys.PathBounds
import Suyu.FileSys.PathNormalizer
import Suyu.FileSys.RomFs
import Suyu.FileSys.VfsFile
import Suyu.FileSys.VfsViews
import Suyu.FileSys.VfsWindows
import Suyu.Kernel.AddressArbiter
import Suyu.Kernel.ConditionVariable
import Suyu.Kernel.DynamicPageManager
import Suyu.Kernel.FreeArea
import Suyu.Kernel.HandleTable
import Suyu.Kernel.HandleTableRuns
import Suyu.Kernel.HeapCopy
import Suyu.Kernel.IpcLock
import Suyu.Kernel.IpcReply
import Suyu.Kernel.IpcServer
import Suyu.Kernel.LightLock
import Suyu.Kernel.MemoryBlock
import Suyu.Kernel.MemoryBlockManager
import Suyu.Kernel.MemoryBlockRuns
import Suyu.Kernel.MemoryBlockUpdate
import Suyu.Kernel.MemoryManager
import Suyu.Kernel.OptimizedMemory
import Suyu.Kernel.PageBitmap
import Suyu.Kernel.PageBitmapLevels
import Suyu.Kernel.PageHeap
import Suyu.Kernel.PageHeapRuns
import Suyu.Kernel.PageHeapStorage
import Suyu.Kernel.PageTraversal
import Suyu.Kernel.PriorityInheritance
import Suyu.Kernel.PriorityInheritanceRuns
import Suyu.Kernel.PriorityQueue
import Suyu.Kernel.PriorityQueueRuns
import Suyu.Kernel.ResourceLimit
import Suyu.Kernel.Scheduler
import Suyu.Kernel.SynchronizationLists
import Suyu.Kernel.SynchronizationObject
import Suyu.Kernel.SynchronizationWait
import Suyu.Kernel.UpdateAllocator
import Suyu.Lib.Bisect
import Suyu.Lib.BitString
import Suyu.Lib.Bits
import Suyu.Lib.BlockLevels
import Suyu.Lib.ChangePoints
import Suyu.Lib.FinishOrder
import Suyu.Lib.Linked
import Suyu.Lib.MinPropagation
import Suyu.Lib.PackedFields
import Suyu.Lib.PartialRuns
import Suyu.Lib.Segments
import Suyu.Lib.StepMap
import Suyu.Lib.Tiling
import Suyu.Lib.Unfolding
import Suyu.Network.PacketStream
import Suyu.Network.Room
import Suyu.Network.RoomMember
import Suyu.Network.RoomNetwork
import Suyu.Network.RoomRelay
import Suyu.Network.RoomRuns
import Suyu.Nvdrv.AddressSpaceGpu
import Suyu.Nvdrv.AddressSpaceGpuFailures
import Suyu.Nvdrv.NvMap
import Suyu.Nvdrv.PinLoop
import Suyu.Nvnflinger.BufferQueue
import Suyu.Nvnflinger.BufferQueueRuns
import Suyu.Nvnflinger.BufferQueueSafe
import Suyu.Shader.SyntaxList
import Suyu.Shader.TranslatePass
import Suyu.VideoCore.BitWriter
import Suyu.VideoCore.ConvertImage
import Suyu.VideoCore.ImageInfo
import Suyu.VideoCore.LevelLayout
import Suyu.VideoCore.MemoryManager
import Suyu.VideoCore.MemoryManagerRefine
import Suyu.VideoCore.Subresource
import Suyu.VideoCore.UsageTracker
