import I80k.Lib.Run
import I80k.Lib.Dyadic
import I80k.Lib.Chain
import I80k.Libc.Malloc
import I80k.Libc.MallocLayout
import I80k.Libc.MallocInvariant
import I80k.Libc.MallocSize
import I80k.Kernel.Heap
import I80k.Kernel.Sbrk
import I80k.Kernel.Ctx
import I80k.Kernel.RingBuffer
import I80k.Kernel.SchedulerInvariant
import I80k.Kernel.SchedulerWait
import I80k.Kernel.SchedulerWakeup
import I80k.Kernel.SchedulerPreempt
import I80k.Kernel.Descriptors
import I80k.Kernel.DescTable
import I80k.Kernel.SchedulerPids
import I80k.Kernel.SchedulerRank
import I80k.Lib.FieldStack
import I80k.Lib.Loop
import I80k.Kernel.Fs.Normalize
import I80k.Kernel.Fs.MountOrder
import I80k.Kernel.Fs.Dispatch
import I80k.Kernel.Fs.DriverPath
import I80k.Kernel.Fs.Unwind
import I80k.Kernel.Fs.Unmount
import I80k.Kernel.Ext2.BlockWidth
import I80k.Kernel.Ext2.ReadInode
import I80k.Kernel.Ext2.InodeAddr
import I80k.Kernel.Ext2.Lookup
import I80k.Kernel.Ext2.LookupLimits
import I80k.Kernel.Ext2.WalkEnds
import I80k.Kernel.Ext2.DirReturns
import I80k.Kernel.Ext2.DirScan
import I80k.Kernel.Ext2.DirBuffer
import I80k.Kernel.Ext2.DirLive
import I80k.Kernel.Ext2.ReadLink
import I80k.Kernel.Ext2.Arith
import I80k.Kernel.BlkdevTrim
import I80k.Kernel.BlkdevFlat
import I80k.Kernel.SubdevWindow
import I80k.Kernel.TransferCount
import I80k.Kernel.Cf20Submit
import I80k.Kernel.PageConserve
import I80k.Kernel.PageAlloc
import I80k.Kernel.PageFree
import I80k.Kernel.Cfi
import I80k.Kernel.ClkSleep
import I80k.Kernel.ClkDeadline
import I80k.Kernel.ClkNodes
import I80k.Vboard.UartBytes
import I80k.Vboard.UartEdges
import I80k.Vboard.UartOverrun
import I80k.Vboard.UartDivision
import I80k.Kernel.Interrupts
import I80k.Kernel.Delay
import I80k.Lib.Circular
import I80k.Kernel.IntrusiveList
import I80k.Kernel.TaskPut
import I80k.Libc.MallocReturns
import I80k.Kernel.PageBuddy
import I80k.Kernel.Ext2.BlockPos
import I80k.Lib.StringInstr
import I80k.Libc.Strings
import I80k.Lib.Logged
import I80k.Kernel.Cf20Identity
import I80k.Kernel.Cf20Identify
import I80k.Lib.Crc
import I80k.Lib.StringMove
import I80k.Xmodem.Server
import I80k.Xmodem.Delivery
import I80k.Xmodem.Frame
import I80k.Xmodem.Transfer
import I80k.Xmodem.Endings
import I80k.Libc.PrintfStandard
import I80k.Libc.StringCopy
import I80k.Vboard.Console
import I80k.Kernel.BlkRegistry
