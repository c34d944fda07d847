import RiscCore.Mm.PmmSafety
import RiscCore.Mm.PmmAlloc
import RiscCore.Mm.PmmWrap
import RiscCore.Mm.PmmBitmap
import RiscCore.Arch.Sv39
import RiscCore.Arch.PageTable
import RiscCore.Arch.LeafSlot
import RiscCore.Arch.MapPage
import RiscCore.Arch.MapRefinement
import RiscCore.Arch.TablePages
import RiscCore.Arch.MapExact
import RiscCore.Arch.MapRange
import RiscCore.Arch.RangeEnd
import RiscCore.Arch.RangeCost
import RiscCore.Arch.MapUndo
import RiscCore.Arch.RangeFailure
import RiscCore.Mm.KernelAddressSpace
import RiscCore.Mm.PublishedTable
import RiscCore.Mm.DeviceRegion
import RiscCore.Arch.Mmu
import RiscCore.Arch.TranslationCache
import RiscCore.Arch.TableFrame
import RiscCore.Arch.PageBalance
import RiscCore.Arch.AddressSpaces
import RiscCore.Mm.KernelPaging
import RiscCore.Boot.Entry
import RiscCore.Mm.PlatformInit
import RiscCore.Ds.List
import RiscCore.Ds.Deque
import RiscCore.Ds.Bitmap
import RiscCore.Core.Switch
import RiscCore.Core.Task
import RiscCore.Core.Sched
import RiscCore.Core.SchedRep
import RiscCore.Core.SchedRuns
import RiscCore.Core.SchedSafety
import RiscCore.Core.RoundRobin
import RiscCore.Core.Decline
import RiscCore.Core.QueueRuns
import RiscCore.Core.TaskTable
import RiscCore.Core.Timer
import RiscCore.Core.Trap
import RiscCore.Core.TrapEntry
import RiscCore.Core.WriteAbi
import RiscCore.Core.StackRoom
import RiscCore.Core.TrapRuns
import RiscCore.Core.Clock
import RiscCore.Core.TaskCode
import RiscCore.Core.FaultReport
import RiscCore.Core.TaskRuns
import RiscCore.Core.Launch
import RiscCore.Drivers.UartPort
import RiscCore.Boot.Kmain
