import OsdevCourse.Reachability
import OsdevCourse.IntrusiveList
import OsdevCourse.DeltaQueue
import OsdevCourse.Scheduler
import OsdevCourse.SchedulerQueues
import OsdevCourse.SchedulerPick
import OsdevCourse.SchedulerConservation
import OsdevCourse.SchedulerSleep
import OsdevCourse.SchedulerInsert
import OsdevCourse.SchedulerPreemption
import OsdevCourse.ByteMemory
import OsdevCourse.Tiling
import OsdevCourse.Kmalloc
import OsdevCourse.KmallocArena
import OsdevCourse.KmallocInvariant
import OsdevCourse.KmallocConcurrent
import OsdevCourse.KmallocSizes
import OsdevCourse.KmallocHistory
import OsdevCourse.Ramdisk
import OsdevCourse.Tarfs
import OsdevCourse.TarArchive
import OsdevCourse.TarScan
import OsdevCourse.DiskTransfers
import OsdevCourse.TarPartial
import OsdevCourse.TarFields
import OsdevCourse.CString
import OsdevCourse.Vfs
import OsdevCourse.Elf
import OsdevCourse.Loader
import OsdevCourse.LoaderSafety
import OsdevCourse.LoaderPatches
import OsdevCourse.LoaderReads
import OsdevCourse.Kvector
import OsdevCourse.LoaderLifetime
import OsdevCourse.LoaderBuffer
import OsdevCourse.ProcessStart
import OsdevCourse.LoaderImage
import OsdevCourse.LoaderTurns
import OsdevCourse.LoaderBounds
import OsdevCourse.LoaderFormulas
import OsdevCourse.LoaderSections
import OsdevCourse.PageEntry
import OsdevCourse.Ownership
import OsdevCourse.Mmu
import OsdevCourse.MmuTranslate
import OsdevCourse.MmuInvariant
import OsdevCourse.MmuEffects
import OsdevCourse.MmuCalls
import OsdevCourse.MmuSteps
import OsdevCourse.MmuRuns
import OsdevCourse.MmuFrames
import OsdevCourse.MmuPool
import OsdevCourse.MmuClone
import OsdevCourse.VmaAlloc
import OsdevCourse.DeviceWindows
import OsdevCourse.MmuSound
import OsdevCourse.MmuTlb
import OsdevCourse.MmuTlbMark
import OsdevCourse.MmuTlbUnmap
import OsdevCourse.MmuTlbRuns
import OsdevCourse.BgaDisplay
import OsdevCourse.BgaPicture
import OsdevCourse.SchedulerQuantum
import OsdevCourse.RoundRobin
import OsdevCourse.SchedulerFifo
import OsdevCourse.SchedulerWake
import OsdevCourse.I686
import OsdevCourse.ContextSwitch
import OsdevCourse.ContextSwitchRuns
import OsdevCourse.Interrupts
import OsdevCourse.ThreadFrames
import OsdevCourse.TrapStubs
import OsdevCourse.DescriptorTables
import OsdevCourse.BootPaging
import OsdevCourse.ExceptionStubs
import OsdevCourse.InterruptController
import OsdevCourse.VirtualCpu
import OsdevCourse.Libgloss
import OsdevCourse.RuntimeTables
import OsdevCourse.Uart
import OsdevCourse.UartRuns
import OsdevCourse.Pci
import OsdevCourse.MmuWindow
import OsdevCourse.MmuRoles
import OsdevCourse.MmuSpaces
import OsdevCourse.MmuDirectory
import OsdevCourse.MmuSpaceRuns
import OsdevCourse.MmuExhaustion
import OsdevCourse.MmuCloneExact
import OsdevCourse.MmuStepEffects
import OsdevCourse.MmuSelfSlots
import OsdevCourse.MmuAlike
import OsdevCourse.MmuRecycled
import OsdevCourse.MmuCr3
import OsdevCourse.ProcessCreate
import OsdevCourse.AddressSpace
import OsdevCourse.HeapGrowth
import OsdevCourse.MmuUserPages
import OsdevCourse.MmuUserRows
import OsdevCourse.LoaderPages
import OsdevCourse.StringOrder
import OsdevCourse.Kdebug
import OsdevCourse.SpinLock
import OsdevCourse.SyscallService
import OsdevCourse.KvectorStorage
import OsdevCourse.MmuRefusal
import OsdevCourse.Handlers
import OsdevCourse.MmuFrugal
import OsdevCourse.ProcessFailure
import OsdevCourse.TcbInit
import OsdevCourse.ProcessIds
import OsdevCourse.PortPrograms
import OsdevCourse.MmuForeign
import OsdevCourse.MmuPinned
import OsdevCourse.MmuBootFrames
import OsdevCourse.MmuModules
import OsdevCourse.Initrd
import OsdevCourse.InitrdRuns
