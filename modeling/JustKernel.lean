import JustKernel.Base.Memory
import JustKernel.Base.Pool
import JustKernel.Base.Runs
import JustKernel.Base.Halting
import JustKernel.Mm.Pmm
import JustKernel.Mm.PmmRuns
import JustKernel.Proc.Sched
import JustKernel.Proc.SchedOwnership
import JustKernel.Proc.SchedAssertions
import JustKernel.Proc.V86
import JustKernel.Proc.V86Privilege
import JustKernel.Proc.V86RealMode
import JustKernel.Proc.V86CallQueue
import JustKernel.Proc.V86CallRuns
import JustKernel.Base.TwoLevel
import JustKernel.Mm.Vmm
import JustKernel.Mm.VmmTables
import JustKernel.Mm.VmmPages
import JustKernel.Mm.VmmRefinement
import JustKernel.Base.Links
import JustKernel.Mm.Heap
import JustKernel.Mm.HeapList
import JustKernel.Mm.HeapChunks
import JustKernel.Mm.HeapAlloc
import JustKernel.Mm.HeapFree
import JustKernel.Mm.HeapAligned
import JustKernel.Mm.HeapRuns
import JustKernel.Mm.HeapDisjoint
import JustKernel.Mm.HeapDoubleFree
import JustKernel.Mm.HeapBounds
import JustKernel.Proc.IsrNesting
import JustKernel.Proc.SchedContext
import JustKernel.Proc.SchedFairness
import JustKernel.Proc.SchedSleep
import JustKernel.Mm.VmmSpaces
import JustKernel.Mm.VmmIsolation
import JustKernel.Mm.VmmFreeCr3
import JustKernel.Mm.VmmRelease
import JustKernel.Mm.VmmMapped
import JustKernel.Proc.Elf
import JustKernel.Proc.ElfImage
import JustKernel.Mm.HeapPaging
import JustKernel.Mm.KernelPaging
import JustKernel.Mm.HeapMapped
import JustKernel.Mm.HeapCoherence
import JustKernel.Mm.HeapFrames
import JustKernel.Mm.HeapTags
import JustKernel.Mm.HeapTagRuns
import JustKernel.Mm.HeapTrim
import JustKernel.Mm.HeapWellFormed
import JustKernel.Mm.HeapRequests
import JustKernel.Mm.PmmAccounting
import JustKernel.Mm.VmmOverlap
import JustKernel.Proc.Reap
import JustKernel.Proc.Syscalls
import JustKernel.Drivers.ConsoleBounds
import JustKernel.Base.FirstRun
import JustKernel.Mm.PmmFirstFit
import JustKernel.Mm.PmmSetup
import JustKernel.Mm.PmmIndices
import JustKernel.Mm.VmmLookup
import JustKernel.Proc.V86Frames
import JustKernel.Klibc.String
import JustKernel.Klibc.Stdio
import JustKernel.Klibc.FormatBounds
import JustKernel.Klibc.Formatter
import JustKernel.Base.FirstLeast
import JustKernel.Proc.SchedPick
import JustKernel.Base.AddressSpace
import JustKernel.Klibc.CString
import JustKernel.Fs.Elf
import JustKernel.Fs.ElfSymbols
import JustKernel.Sys.StackTrace
import JustKernel.Sys.Madt
import JustKernel.Sys.MadtBounds
import JustKernel.Sys.Acpi
import JustKernel.Drivers.ScreenScroll
import JustKernel.Sys.Ioapic
import JustKernel.Sys.IoapicRouting
import JustKernel.Proc.V86Prefixes
import JustKernel.Base.ByteStore
import JustKernel.Klibc.Numerals
import JustKernel.Klibc.InPlace
import JustKernel.Klibc.BoundedCopy
import JustKernel.Proc.ProcName
import JustKernel.Base.Tenancy
import JustKernel.Proc.SchedSmp
import JustKernel.Proc.SchedSmpOwnership
import JustKernel.Proc.SchedSmpContext
import JustKernel.Mm.HeapContents
import JustKernel.Base.Channel
import JustKernel.Klibc.Lock
import JustKernel.Klibc.Log
import JustKernel.Base.Words
import JustKernel.Int.Isr
import JustKernel.Proc.Thread
import JustKernel.Proc.SchedMachine
import JustKernel.Proc.ThreadStart
import JustKernel.Int.Dt
import JustKernel.Sys.SmpBoot
import JustKernel.Klibc.Llist
import JustKernel.Drivers.VesaModes
import JustKernel.Proc.SyscallReturn
import JustKernel.Proc.SchedSmpStacks
import JustKernel.Drivers.Serial
import JustKernel.Drivers.ConsoleSheet
